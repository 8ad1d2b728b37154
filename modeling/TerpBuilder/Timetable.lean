/-
A student's timetable: the sections they are in, and nothing else.

What `ScheduleModel` and the cards are for, without day lists and without the
array of section ids. A tap on a section drops it if the timetable holds it,
adds it if not, and is refused where every day of the section has a lecture that
is nested with it. No two sections have one id, and that is part of what a
timetable is.
-/
import TerpBuilder.Booking
import TerpBuilder.Removal

set_option autoImplicit false

namespace TerpBuilder

open CourseData

structure Timetable where
  sections : List CourseData
  distinct : (sections.map (·.sectionID)).Nodup

/-- A tap on the button of a section, and "Ok" of the alert. -/
inductive Request where
  | tap (course : CourseData)
  | dismiss

namespace Timetable

variable {t t' : Timetable} {course : CourseData}

theorem ext (h : t.sections = t'.sections) : t = t' := by
  cases t
  cases t'
  cases h
  rfl

def empty : Timetable := ⟨[], List.nodup_nil⟩

/-- The section is in the timetable. -/
def Holds (t : Timetable) (id : String) : Prop := id ∈ t.sections.map (·.sectionID)

/-- Every day of the section has a lecture that is nested with its lecture. -/
def Refuses (t : Timetable) (course : CourseData) : Prop :=
  ∀ d ∈ course.filedDays, ∃ e ∈ t.sections, d ∈ e.filedDays ∧ Lectures Span.Nested e course

def drop (t : Timetable) (course : CourseData) : Timetable where
  sections := t.sections.filter fun e => !(e == course)
  distinct := t.distinct.sublist (List.filter_sublist.map _)

def add (t : Timetable) (course : CourseData) (h : ¬ t.Holds course.sectionID) : Timetable where
  sections := t.sections ++ [course]
  distinct := by
    rw [List.map_append, List.map_singleton, List.nodup_append]
    refine ⟨t.distinct, List.nodup_singleton _, fun id hid id' hid' heq => h ?_⟩
    rw [← List.mem_singleton.mp hid', ← heq]
    exact hid

open Classical in
/-- One request; the flag says whether an alert is shown. -/
noncomputable def step (p : Timetable × Bool) : Request → Timetable × Bool
  | .tap course =>
    if h : p.1.Holds course.sectionID then (p.1.drop course, p.2)
    else if p.1.Refuses course then (p.1, true)
    else (p.1.add course h, false)
  | .dismiss => (p.1, false)

/-- The timetable after some requests. -/
noncomputable def after (requests : List Request) : Timetable × Bool := requests.foldl step (empty, false)

theorem after_append (requests more : List Request) :
    after (requests ++ more) = more.foldl step (after requests) := by
  rw [after, List.foldl_append]
  rfl

/-- The sections come from the taps. -/
theorem mem_of_mem_after {requests : List Request} {e : CourseData} (h : e ∈ (after requests).1.sections) :
    .tap e ∈ requests := by
  induction requests using List.reverseRecOn with
  | nil => exact absurd h List.not_mem_nil
  | append_singleton requests r ih =>
    rw [after_append] at h
    rw [List.mem_append]
    cases r with
    | dismiss => exact Or.inl (ih h)
    | tap course =>
      simp only [List.foldl_cons, List.foldl_nil, step] at h
      split_ifs at h
      · exact Or.inl (ih (List.mem_of_mem_filter h))
      · exact Or.inl (ih h)
      · rcases List.mem_append.mp h with h | h
        · exact Or.inl (ih h)
        · rw [List.mem_singleton.mp h]
          exact Or.inr (List.mem_singleton_self _)

end Timetable

end TerpBuilder

/-
What an accepted course can do to a later operation.

The strings of a course are read when a later add or a later view meets it, not
when it is added: an empty day list accepts any times. A course that is filed
somewhere is safe when the formatter reads its lecture times and no days string
of it ends in `T`. While only such courses are filed no later add of well-formed
times and no view traps, whatever the order of adds and removes.
-/
import TerpBuilder.Booking
import TerpBuilder.ScheduleView

set_option autoImplicit false

namespace TerpBuilder

variable {date : DateFrom}

namespace CourseData

/-- What later operations read of the course is readable: the lecture times for
the formatter, and the days for the lookahead of the scan. -/
def Readable (date : DateFrom) (course : CourseData) : Prop :=
  (∃ i, course.readLecture date = some i) ∧ ∀ i ∈ course.meeting, i.days.toList.getLast? ≠ some 'T'

end CourseData

/-! ## One readable course -/

section OneCourse

variable {course : CourseData} {m : Meeting}

theorem date_of_readLecture {i : Span ℕ} (hone : course.meeting = [m])
    (h : course.readLecture date = some i) :
    date lectureFormatter m.start_time = some i.start ∧ date lectureFormatter m.end_time = some i.stop := by
  rw [CourseData.readLecture, hone] at h
  simp only [List.getElem?_cons_zero, Option.bind_some, readSpan, Option.bind_eq_bind,
    Option.bind_eq_some_iff, Option.pure_def, Option.some.injEq] at h
  obtain ⟨a, ha, b, hb, rfl⟩ := h
  exact ⟨ha, hb⟩

/-- The body of the view's loop does not trap on a single readable meeting. What
`HH:mma` reads splits at its colon, so `convertTime` takes it apart too. -/
theorem visit_isSome (hmatch : date.MatchesWhole) (hone : course.meeting = [m])
    (hread : course.Readable date) (d : Day) (t : ℤ) : (visit d t course m).isSome = true := by
  obtain ⟨⟨i, hi⟩, hlast⟩ := hread
  obtain ⟨hstart, hstop⟩ := date_of_readLecture hone hi
  obtain ⟨hr, mn, hconv⟩ := convertTime_isSome (hmatch _ _ hstart)
  obtain ⟨hr', mn', hconv'⟩ := convertTime_isSome (hmatch _ _ hstop)
  rw [visit, meetsCurr_eq d m.days (hlast m (by simp [hone])), hconv, hconv']
  simp only [Option.bind_eq_bind, Option.bind_some]
  split_ifs <;> rfl

end OneCourse

/-! ## A schedule of readable courses -/

namespace ScheduleModel

variable {s : ScheduleModel}

/-- Every course filed anywhere is a single readable meeting. -/
def AllReadable (date : DateFrom) (s : ScheduleModel) : Prop :=
  ∀ d, ∀ e ∈ s.currSchedule d, e.Readable date ∧ ∃ m, e.meeting = [m]

theorem empty_allReadable : empty.AllReadable date := fun _ _ he => absurd he List.not_mem_nil

/-- An add of well-formed times does not trap. -/
theorem addToSchedule_isSome (hdate : date.ReadsClock) (hs : s.AllReadable date) {course : CourseData}
    {m : Meeting} (hone : course.meeting = [m]) {j : Span ℕ}
    (hj : clockSpan m.start_time m.end_time = some j) :
    (s.addToSchedule date course).isSome = true := by
  have hm : course.FirstMeeting m := CourseData.firstMeeting_of_eq hone
  have hconflict : ∃ b, s.checkConflict date course = some b := by
    by_cases hfiled : filedDays m.days = []
    · -- filed nowhere: no time is read
      have hlen : course.meeting.length ≠ 2 := by simp [hone]
      exact ⟨false, checkConflict_of_unfiled_of_length date hm hfiled hlen⟩
    · have hread : course.readLecture date = some j :=
        hm.readLecture_eq.trans (readSpan_of_clockSpan hdate hj)
      obtain ⟨b, hb, -⟩ := checkConflict_eq_all hm hfiled (fun d e he => (hs d e he).1.1) hread
      exact ⟨b, hb⟩
  obtain ⟨b, hb⟩ := hconflict
  rw [addToSchedule_eq date hm, hb]
  rfl

/-- No view traps. -/
theorem checkForClass_isSome (hmatch : date.MatchesWhole) (hs : s.AllReadable date) (d : Day) (t : ℤ) :
    (checkForClass s d.rawValue t).isSome = true := by
  have hloop : ((s.currSchedule d).findSomeM? fun course : CourseData =>
      course.meeting.findSomeM? (visit d t course)).isSome = true := by
    apply findSomeM?_isSome
    intro e he
    obtain ⟨hread, m, hone⟩ := hs d e he
    apply findSomeM?_isSome
    intro i hi
    rw [hone, List.mem_singleton] at hi
    rw [hi]
    exact visit_isSome hmatch hone hread d t
  obtain ⟨returned, h⟩ := Option.isSome_iff_exists.mp hloop
  rw [checkForClass, dayOf_rawValue, h]
  rfl

/-! ## Runs -/

/-- No operation on the schedule traps: neither an add of a single meeting with
well-formed times nor a view. -/
def NoLaterTrap (date : DateFrom) (s : ScheduleModel) : Prop :=
  (∀ course m, course.meeting = [m] → (∃ j, clockSpan m.start_time m.end_time = some j) →
    (s.addToSchedule date course).isSome = true) ∧
  ∀ (d : Day) (t : ℤ), (checkForClass s d.rawValue t).isSome = true

/-- The calls that leave the schedule readable: a removal, and an add of a course
that is refused here, filed nowhere, or readable. -/
def Harmless (date : DateFrom) (s : ScheduleModel) : Call → Prop
  | .add course =>
      s.checkConflict date course = some false → course.filedDays ≠ [] → course.Readable date
  | .remove _ => True

theorem step_allReadable {s' : ScheduleModel} (hs : s.AllReadable date) {call : Call}
    (hone : ∃ m, call.course.meeting = [m]) (hsafe : s.Harmless date call)
    (hstep : call.step date s = some s') : s'.AllReadable date := by
  intro d e he
  rcases mem_of_step date hstep he with hold | ⟨rfl, hd, haccepted⟩
  · exact hs d e hold
  · -- the course of the call itself: accepted and filed, so it is readable
    exact ⟨hsafe haccepted (List.ne_nil_of_mem hd), hone⟩

/-- **An accepted course makes no later operation crash**, in any run of calls
with single meetings whose accepted courses, where they are filed at all, are
readable. -/
theorem no_later_trap (hdate : date.ReadsClock) (hmatch : date.MatchesWhole) (calls : List Call)
    (hone : ∀ call ∈ calls, ∃ m, call.course.meeting = [m])
    (hsafe : EachStep (Call.step date) (Harmless date) empty calls) (s : ScheduleModel)
    (hrun : run (Call.step date) empty calls = some s) : s.NoLaterTrap date := by
  have hread : s.AllReadable date := by
    refine run_invariant_of_eachStep (AllReadable date) (Harmless date) ?_ empty_allReadable hsafe hrun
    intro s₁ call s₂ hs₁ hcall hmem hstep
    exact step_allReadable hs₁ (hone call hmem) hcall hstep
  refine ⟨?_, checkForClass_isSome hmatch hread⟩
  rintro course m hm ⟨j, hj⟩
  exact addToSchedule_isSome hdate hread hm hj

/-- A section whose times are not settled yet. -/
def toBeAnnounced : CourseData := .section "HIST200-0101" [.on "M" "TBA" "TBA"]

/-- It is accepted into the empty Monday, and the next Monday course traps. -/
theorem accepted_course_traps_next_add :
    ¬ ∀ (date : DateFrom), date.ReadsClock → date.MatchesWhole → ∀ calls : List Call,
      (∀ call ∈ calls, ∃ m, call.course.meeting = [m]) → ∀ s,
      run (Call.step date) empty calls = some s → s.NoLaterTrap date := by
  intro h
  have hone : ∀ call ∈ [Call.add toBeAnnounced], ∃ m, call.course.meeting = [m] := by
    intro call hcall
    rw [List.mem_singleton.mp hcall]
    exact ⟨_, rfl⟩
  have hreach : (run (Call.step .strict) empty [.add toBeAnnounced]).map
      (fun s => (s.addToSchedule .strict nineToTen).isSome) = some false := by decide
  obtain ⟨s, hs, htrap⟩ := Option.map_eq_some_iff.mp hreach
  have hsafe := h .strict DateFrom.strict_readsClock DateFrom.strict_matchesWhole _ hone s hs
  have hadd := hsafe.1 nineToTen (.on "M" "9:00am" "10:00am") rfl ⟨⟨540, 600⟩, by decide⟩
  rw [htrap] at hadd
  cases hadd

theorem nineToTen_readable : nineToTen.Readable .strict := by
  refine ⟨⟨⟨540, 600⟩, by decide⟩, fun i hi => ?_⟩
  rw [List.mem_singleton.mp hi]
  decide

/-- After a readable course nothing traps. -/
theorem no_later_trap_one :
    ∃ s, run (Call.step .strict) empty [.add nineToTen] = some s ∧ s.NoLaterTrap .strict := by
  have hreach : (run (Call.step .strict) empty [.add nineToTen]).isSome = true := by decide
  obtain ⟨s, hs⟩ := Option.isSome_iff_exists.mp hreach
  refine ⟨s, hs, no_later_trap DateFrom.strict_readsClock DateFrom.strict_matchesWhole _ ?_ ?_ s hs⟩
  · intro call hcall
    rw [List.mem_singleton.mp hcall]
    exact ⟨_, rfl⟩
  · intro pre call hpre s' _
    have hcall : call ∈ [Call.add nineToTen] := hpre.subset (by simp)
    rw [List.mem_singleton.mp hcall]
    exact fun _ _ => nineToTen_readable

end ScheduleModel

end TerpBuilder

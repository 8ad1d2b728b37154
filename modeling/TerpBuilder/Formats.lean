/-
Which adds of well-formed times complete.

The lecture check and the discussion check read the same kind of string, "9:30am",
with two formats. "HH:mma" reads it; "HH:mm" leaves the am or pm over and gives
nil, which the comparison unwraps. So an add traps exactly when it comes to
compare a discussion at all: the lecture's days string is filed nowhere, the course
has a discussion, and the first list of that holds another one.
-/
import TerpBuilder.Discussion

set_option autoImplicit false

namespace TerpBuilder

variable {date : DateFrom}

/-- Both times are well formed. -/
structure Meeting.Clocked (i : Meeting) : Prop where
  start_time : ∃ a : ClockTime, i.start_time = a.text
  end_time : ∃ b : ClockTime, i.end_time = b.text

/-- One or two meetings, with well-formed times. -/
structure CourseData.Clocked (course : CourseData) : Prop where
  count : course.meeting.length = 1 ∨ course.meeting.length = 2
  meetings : ∀ i ∈ course.meeting, i.Clocked

theorem CourseData.Clocked.exists_firstMeeting {course : CourseData} (h : course.Clocked) :
    ∃ m, course.FirstMeeting m := by
  apply CourseData.exists_firstMeeting
  intro hnil
  have hcount := h.count
  rw [hnil] at hcount
  simp at hcount

/-- "HH:mma" reads the lecture. -/
theorem CourseData.Clocked.readLecture {course : CourseData} (h : course.Clocked) (hdate : date.ReadsClock) :
    ∃ i, course.readLecture date = some i := by
  obtain ⟨m, hm⟩ := h.exists_firstMeeting
  obtain ⟨⟨a, ha⟩, ⟨b, hb⟩⟩ := h.meetings m (List.mem_of_getElem? hm)
  have hspan : clockSpan m.start_time m.end_time = some ⟨a.minuteOfDay, b.minuteOfDay⟩ :=
    clockSpan_eq_some_iff.mpr ⟨a, b, ha, hb, rfl⟩
  exact ⟨_, hm.readLecture_eq.trans (readSpan_of_clockSpan hdate hspan)⟩

namespace ScheduleModel

variable {s : ScheduleModel} {course : CourseData}

/-- Every course filed anywhere is of this kind. -/
def AllClocked (s : ScheduleModel) : Prop := ∀ d, ∀ e ∈ s.currSchedule d, e.Clocked

theorem discussions_clocked (hs : s.AllClocked) (d : Day) :
    ∀ k ∈ discussions (s.currSchedule d), k.Clocked := by
  intro k hk
  obtain ⟨e, he, hek⟩ := List.mem_filterMap.mp hk
  split_ifs at hek
  exact (hs d e he).meetings k (List.mem_of_getElem? hek)

/-! ## The discussion check -/

/-- With "HH:mm" rejecting am and pm, the check of a day completes when there is
nothing to compare with. -/
theorem checkDiscussion_of_rejects (hrej : date.RejectsMeridiem) (hs : s.AllClocked) (d : Day) (x y : String) :
    s.checkDiscussion date d x y = if discussions (s.currSchedule d) = [] then some false else none := by
  rw [checkDiscussion, discussionLoop_eq]
  have hclocked := discussions_clocked hs d
  rcases hlist : discussions (s.currSchedule d) with _ | ⟨k, ks⟩
  · rfl
  · -- the first comparison unwraps the start of `k`
    rw [hlist] at hclocked
    obtain ⟨a, ha⟩ := (hclocked k List.mem_cons_self).start_time
    have hnone : staysClear date discussionFormatter k x y = none :=
      staysClear_of_start_unread (Or.inl (ha ▸ hrej a))
    rw [allM_cons_eq_andM, hnone, if_neg (List.cons_ne_nil k ks)]
    rfl

/-- The discussion is compared with nothing: it is not looked at, or the first
list of its days string, if there is one, holds no discussion. -/
def ComparesNoDiscussion (s : ScheduleModel) (course : CourseData) : Prop :=
  course.filedDays = [] → ∀ n, course.meeting[1]? = some n →
    ∀ d, (filedDays n.days).head? = some d → discussions (s.currSchedule d) = []

/-- **The check completes** exactly when it compares no discussion. -/
theorem checkConflict_isSome_iff (hdate : date.ReadsClock) (hrej : date.RejectsMeridiem) (hs : s.AllClocked)
    (hc : course.Clocked) : (s.checkConflict date course).isSome = true ↔ s.ComparesNoDiscussion course := by
  obtain ⟨m, hm⟩ := hc.exists_firstMeeting
  rw [ComparesNoDiscussion, hm.filedDays_eq]
  by_cases hfiled : filedDays m.days = []
  · simp only [hfiled, true_implies]
    rcases hc.count with hlen | hlen
    · -- a single meeting: there is no discussion
      have hnone : course.meeting[1]? = none := List.getElem?_eq_none (by omega)
      rw [checkConflict_of_unfiled_of_length date hm hfiled (by omega), hnone]
      simp
    · obtain ⟨n, hmeet⟩ := hm.exists_pair hlen
      rw [checkConflict_of_unfiled date hmeet hfiled, hmeet]
      simp only [List.getElem?_cons_succ, List.getElem?_cons_zero, Option.some.injEq, forall_eq']
      rcases filedDays n.days with _ | ⟨d, ds⟩
      · simp
      · -- the first list decides: `false` ends the conjunction, and nil traps
        rw [if_neg (List.cons_ne_nil d ds), allM_cons_eq_andM, checkDiscussion_of_rejects hrej hs]
        by_cases hempty : discussions (s.currSchedule d) = [] <;> simp [hempty]
  · obtain ⟨j, hj⟩ := hc.readLecture hdate
    obtain ⟨b, hb, -⟩ := checkConflict_eq_all hm hfiled (fun d e he => (hs d e he).readLecture hdate) hj
    simp [hb, hfiled]

/-! ## Runs -/

theorem allClocked_of_run {calls : List Call} (hcalls : ∀ course, Call.add course ∈ calls → course.Clocked)
    (hrun : run (Call.step date) empty calls = some s) : s.AllClocked := by
  refine run_invariant AllClocked ?_ (fun _ _ he => absurd he List.not_mem_nil) hrun
  intro s₁ call s₂ hs₁ hcall hstep d e he
  rcases mem_of_step date hstep he with hold | ⟨rfl, -, -⟩
  · exact hs₁ d e hold
  · exact hcalls e hcall

/-- **When an add of well-formed data completes.** In every schedule reached by
adds and removals of courses with one or two meetings at well-formed times: the
add of another one completes if and only if it compares no discussion. -/
theorem add_completes_iff (hdate : date.ReadsClock) (hrej : date.RejectsMeridiem) (calls : List Call)
    (hcalls : ∀ course, Call.add course ∈ calls → course.Clocked) (s : ScheduleModel)
    (hrun : run (Call.step date) empty calls = some s) (course : CourseData) (hc : course.Clocked) :
    (s.addToSchedule date course).isSome = true ↔ s.ComparesNoDiscussion course := by
  obtain ⟨m, hm⟩ := hc.exists_firstMeeting
  rw [addToSchedule_eq date hm, Option.isSome_map]
  exact checkConflict_isSome_iff hdate hrej (allClocked_of_run hcalls hrun) hc

/-- A lecture on Mondays with a discussion on Mondays, later in the day. -/
def mondayTwice : CourseData :=
  .section "BSCI170-0101" [.on "M" "9:00am" "9:50am", .on "M" "3:00pm" "3:50pm"]

/-- A lecture on every weekday with a discussion on Mondays. -/
def everyDay : CourseData :=
  .section "SPAN101-0101" [.on "MTuWThF" "11:00am" "11:50am", .on "M" "1:00pm" "1:50pm"]

theorem clocked_of_readClock {sectionID : String} {i k : Meeting}
    (h : [i, k].all (fun i => (readClock i.start_time).isSome && (readClock i.end_time).isSome) = true) :
    (CourseData.section sectionID [i, k]).Clocked := by
  refine ⟨Or.inr rfl, fun i hi => ?_⟩
  have hread := List.all_eq_true.mp h i hi
  rw [Bool.and_eq_true] at hread
  exact ⟨exists_clock_of_readClock hread.1, exists_clock_of_readClock hread.2⟩

theorem mondayTwice_clocked : mondayTwice.Clocked := clocked_of_readClock (by decide)

theorem everyDay_clocked : everyDay.Clocked := clocked_of_readClock (by decide)

theorem only_mondayTwice {course : CourseData} (h : Call.add course ∈ [Call.add mondayTwice]) : course.Clocked := by
  obtain rfl : course = mondayTwice := by simpa using h
  exact mondayTwice_clocked

/-- The Monday discussions are compared, and the first time is not read. -/
theorem wellFormed_add_traps :
    ¬ ∀ (date : DateFrom), date.ReadsClock → date.RejectsMeridiem → ∀ calls : List Call,
      (∀ course, Call.add course ∈ calls → course.Clocked) → ∀ s,
      run (Call.step date) empty calls = some s → ∀ course, course.Clocked →
      (s.addToSchedule date course).isSome = true := by
  intro h
  have hreach : (run (Call.step .strict) empty [.add mondayTwice]).map
      (fun s => (s.addToSchedule .strict everyDay).isSome) = some false := by decide
  obtain ⟨s, hs, htrap⟩ := Option.map_eq_some_iff.mp hreach
  have hadd := h .strict DateFrom.strict_readsClock DateFrom.strict_rejectsMeridiem _
    (fun _ => only_mondayTwice) s hs everyDay everyDay_clocked
  rw [htrap] at hadd
  cases hadd

/-- The schedule after the first of the two has been added. -/
def mondayTaken : ScheduleModel := { empty.fileUnder "M" mondayTwice with currClasses := ["BSCI170-0101"] }

/-- The same two: the second one is compared with the Monday discussion of the
first. -/
theorem add_completes_iff_monday :
    (mondayTaken.addToSchedule .strict everyDay).isSome = true ↔ mondayTaken.ComparesNoDiscussion everyDay :=
  add_completes_iff DateFrom.strict_readsClock DateFrom.strict_rejectsMeridiem [.add mondayTwice]
    (fun _ => only_mondayTwice) mondayTaken rfl everyDay everyDay_clocked

end ScheduleModel

end TerpBuilder

/-
A refusal against a fuller schedule.

Both loops stop at the first entry that conflicts and go on past every other one,
so what they answer is whether each entry of the list lets them go on. Of that
only this much is used: a list that holds more can only let them go on less. The
conflict check joins such answers, so a course that is refused stays refused when
classes are added, and one that is accepted stays accepted when classes are
removed, as long as no time on the way fails to parse.
-/
import TerpBuilder.Discussion
import Mathlib.Data.List.Perm.Subperm

set_option autoImplicit false

namespace TerpBuilder

namespace ScheduleModel

variable {date : DateFrom} {s s' s'' : ScheduleModel} {course : CourseData}

/-! ## Schedules that hold more -/

/-- Every list of the first is contained in that of the second, as a multiset. -/
def Contained (s s' : ScheduleModel) : Prop := ∀ d, (s.currSchedule d).Subperm (s'.currSchedule d)

namespace Contained

theorem refl (s : ScheduleModel) : s.Contained s := fun _ => List.Subperm.refl _

theorem trans (h : s.Contained s') (h' : s'.Contained s'') : s.Contained s'' := fun d => (h d).trans (h' d)

/-- Whatever an add decides, it takes nothing away. -/
theorem of_add (h : s.addToSchedule date course = some s') : s.Contained s' := by
  obtain ⟨m, hm, ⟨-, rfl⟩ | ⟨-, rfl⟩⟩ := addToSchedule_cases h
  · exact fun d => List.Subperm.refl _
  · intro d
    show (s.currSchedule d).Subperm ((s.fileUnder m.days course).currSchedule d)
    rw [fileUnder_currSchedule]
    split_ifs
    · exact (List.sublist_append_left _ _).subperm
    · exact List.Subperm.refl _

theorem of_remove (h : s.removeFromSchedule course = some s') : s'.Contained s := by
  obtain ⟨m, hm, -⟩ := removeFromSchedule_cases h
  obtain ⟨s₁, hs₁, hsub⟩ := removeFromSchedule_sublist (s := s) hm
  obtain rfl : s₁ = s' := Option.some.inj (hs₁.symm.trans h)
  exact fun d => (hsub d).subperm

/-- A run of adds only ends in a schedule that holds more. -/
theorem of_run_adds {calls : List Call} (hadds : ∀ call ∈ calls, ∃ c, call = .add c)
    (hrun : run (Call.step date) s calls = some s') : s.Contained s' := by
  refine run_invariant s.Contained ?_ (refl s) hrun
  intro s₁ call s₂ hs₁ hcall hstep
  obtain ⟨c, rfl⟩ := hadds call hcall
  exact hs₁.trans (of_add hstep)

/-- A run of removals only ends in a schedule that holds less. -/
theorem of_run_removes {calls : List Call} (hremoves : ∀ call ∈ calls, ∃ c, call = .remove c)
    (hrun : run (Call.step date) s calls = some s') : s'.Contained s := by
  refine run_invariant (fun t => t.Contained s) ?_ (refl s) hrun
  intro s₁ call s₂ hs₁ hcall hstep
  obtain ⟨c, rfl⟩ := hremoves call hcall
  exact (of_remove hstep).trans hs₁

end Contained

/-! ## The two loops -/

/-- A loop that stops somewhere does not run through a list that holds more. -/
theorem loop_ne_false {α : Type*} {goesOn : α → Option Bool} {l l' : List α} (hsub : l ⊆ l')
    (h : (l.allM goesOn).map not = some true) : (l'.allM goesOn).map not ≠ some false := by
  intro h'
  rw [map_not_eq_some_iff] at h h'
  obtain ⟨a, ha, hstop⟩ := exists_of_allM_eq_some_false h
  have hgo := allM_eq_some_true_iff.mp h' a (hsub ha)
  rw [hstop] at hgo
  cases hgo

theorem checkLecture_ne_false (h : s.Contained s') {d : Day} (m : Meeting)
    (hs : s.checkLecture date d m.start_time m.end_time = some true) :
    s'.checkLecture date d m.start_time m.end_time ≠ some false := by
  rw [checkLecture, lectureLoop_eq_allM] at hs ⊢
  exact loop_ne_false (h d).subset hs

theorem checkDiscussion_ne_false (h : s.Contained s') {d : Day} (n : Meeting)
    (hs : s.checkDiscussion date d n.start_time n.end_time = some true) :
    s'.checkDiscussion date d n.start_time n.end_time ≠ some false := by
  rw [checkDiscussion, discussionLoop_eq] at hs ⊢
  exact loop_ne_false (List.filterMap_subset _ (h d).subset) hs

/-! ## The decision chain -/

/-- The same for the verdicts of several days, joined by `&&`. -/
theorem allM_ne_false {α : Type*} {check check' : α → Option Bool} {days : List α}
    (hday : ∀ d, check d = some true → check' d ≠ some false) (h : days.allM check = some true) :
    days.allM check' ≠ some false := by
  intro h'
  obtain ⟨d, hd, hfalse⟩ := exists_of_allM_eq_some_false h'
  exact hday d (allM_eq_some_true_iff.mp h d hd) hfalse

/-- A course without meetings traps before any verdict. -/
theorem exists_firstMeeting_of_checkConflict {b : Bool} (h : s.checkConflict date course = some b) :
    ∃ m, course.FirstMeeting m := by
  apply CourseData.exists_firstMeeting
  intro hnil
  rw [checkConflict, hnil] at h
  cases h

/-- **A refusal is not turned into an acceptance** by a schedule that holds more:
the check refuses there as well, or it traps. -/
theorem checkConflict_ne_false (h : s.Contained s') (hs : s.checkConflict date course = some true) :
    s'.checkConflict date course ≠ some false := by
  obtain ⟨m, hm⟩ := exists_firstMeeting_of_checkConflict hs
  by_cases hfiled : filedDays m.days = []
  · by_cases hlen : course.meeting.length = 2
    · -- the lecture chain falls through to the discussion chain
      obtain ⟨n, hmeet⟩ := hm.exists_pair hlen
      rw [checkConflict_of_unfiled date hmeet hfiled] at hs ⊢
      by_cases hdays : filedDays n.days = []
      · rw [if_pos hdays] at hs
        cases hs
      · rw [if_neg hdays] at hs ⊢
        exact allM_ne_false (fun d => checkDiscussion_ne_false h n) hs
    · rw [checkConflict_of_unfiled_of_length date hm hfiled hlen] at hs
      cases hs
  · rw [checkConflict_of_filed date hm hfiled] at hs ⊢
    exact allM_ne_false (fun d => checkLecture_ne_false h m) hs

/-! ## When no time fails to parse -/

/-- No time involved fails to parse: the times of the lecture and of the lectures
filed on its days, or, where the course is checked by its discussion, those of the
discussions. -/
structure TimesRead (date : DateFrom) (s : ScheduleModel) (course : CourseData) : Prop where
  lecture : course.filedDays ≠ [] → (∃ j, course.readLecture date = some j) ∧
    ∀ d ∈ course.filedDays, ∀ e ∈ s.currSchedule d, ∃ i, e.readLecture date = some i
  discussion : ∀ m n, course.meeting = [m, n] → filedDays m.days = [] →
    (∃ j, readSpan date discussionFormatter n.start_time n.end_time = some j) ∧
      ∀ d ∈ filedDays n.days, ∀ k ∈ discussions (s.currSchedule d),
        ∃ i, readSpan date discussionFormatter k.start_time k.end_time = some i

/-- Then the check of a course with at least one meeting does not trap. -/
theorem TimesRead.exists_checkConflict (h : s.TimesRead date course) (hc : course.meeting ≠ []) :
    ∃ b, s.checkConflict date course = some b := by
  obtain ⟨m, hm⟩ := CourseData.exists_firstMeeting hc
  by_cases hfiled : filedDays m.days = []
  · by_cases hlen : course.meeting.length = 2
    · obtain ⟨n, hmeet⟩ := hm.exists_pair hlen
      rw [checkConflict_of_unfiled date hmeet hfiled]
      split_ifs
      · exact ⟨false, rfl⟩
      · obtain ⟨⟨j, hj⟩, hread⟩ := h.discussion m n hmeet hfiled
        apply exists_allM_eq_some
        intro d hd
        rw [checkDiscussion, discussionLoop_eq]
        -- each comparison reads its four times, so none of them traps
        have hpass : ∀ k ∈ discussions (s.currSchedule d), ∃ b,
            staysClear date discussionFormatter k n.start_time n.end_time = some b := by
          intro k hk
          obtain ⟨i, hi⟩ := hread d hd k hk
          exact ⟨_, staysClear_eq hi hj⟩
        obtain ⟨b, hb⟩ := exists_allM_eq_some hpass
        exact ⟨!b, by rw [hb, Option.map_some]⟩
    · exact ⟨false, checkConflict_of_unfiled_of_length date hm hfiled hlen⟩
  · obtain ⟨⟨j, hj⟩, hread⟩ := h.lecture (by rwa [hm.filedDays_eq])
    rw [hm.readLecture_eq] at hj
    rw [hm.filedDays_eq] at hread
    rw [checkConflict_of_filed date hm hfiled]
    exact exists_allM_eq_some fun d hd => ⟨_, checkLecture_eq (hread d hd) hj⟩

/-- With every time read, a schedule that holds more refuses whatever is
refused. -/
theorem checkConflict_of_contained (h : s.Contained s') (hread : s'.TimesRead date course)
    (hs : s.checkConflict date course = some true) : s'.checkConflict date course = some true := by
  obtain ⟨m, hm⟩ := exists_firstMeeting_of_checkConflict hs
  obtain ⟨b, hb⟩ := hread.exists_checkConflict hm.meeting_ne_nil
  cases b with
  | true => exact hb
  | false => exact absurd hb (checkConflict_ne_false h hs)

/-- **A refusal is monotone in the schedule.** A course refused in a schedule is
not accepted in one that contains it, and if no time involved fails to parse it is
refused there. So no run of removals makes the check refuse a course it accepts,
and no run of adds makes it accept a course it refuses. -/
theorem refusal_monotone (date : DateFrom) (s s' : ScheduleModel) (course : CourseData) :
    (s.Contained s' → s.checkConflict date course = some true →
        s'.checkConflict date course ≠ some false ∧
          (s'.TimesRead date course → s'.checkConflict date course = some true)) ∧
      (∀ calls, (∀ call ∈ calls, ∃ c, call = .remove c) → run (Call.step date) s calls = some s' →
        s.checkConflict date course = some false → s'.checkConflict date course ≠ some true) ∧
      (∀ calls, (∀ call ∈ calls, ∃ c, call = .add c) → run (Call.step date) s calls = some s' →
        s.checkConflict date course = some true → s'.checkConflict date course ≠ some false) := by
  refine ⟨fun h hs => ⟨checkConflict_ne_false h hs, fun hread => checkConflict_of_contained h hread hs⟩, ?_, ?_⟩
  · intro calls hremoves hrun hs hs'
    exact checkConflict_ne_false (Contained.of_run_removes hremoves hrun) hs' hs
  · intro calls hadds hrun
    exact checkConflict_ne_false (Contained.of_run_adds hadds hrun)

/-- The Monday morning with a second lecture. -/
def wholeMorning : ScheduleModel :=
  mondayMorning.fileUnder "M" (.section "HIST200-0101" [.on "M" "11:00am" "12:00pm"])

theorem mondayMorning_contained : mondayMorning.Contained wholeMorning := by
  intro d
  rw [wholeMorning, fileUnder_currSchedule]
  split_ifs
  · exact (List.sublist_append_left _ _).subperm
  · exact List.Subperm.refl _

theorem wholeMorning_timesRead : wholeMorning.TimesRead .strict nineToTen where
  lecture := by
    intro _
    refine ⟨⟨⟨540, 600⟩, by decide⟩, fun d hd e he => ?_⟩
    obtain rfl : d = .Mon := List.mem_singleton.mp hd
    rcases List.mem_pair.mp he with rfl | rfl
    · exact ⟨⟨540, 600⟩, by decide⟩
    · exact ⟨⟨660, 720⟩, by decide⟩
  discussion := by
    intro m n hmeet
    cases hmeet

/-- What is refused on the first Monday morning is refused on the fuller one. -/
theorem refusal_monotone_monday : wholeMorning.checkConflict .strict nineToTen = some true := by
  obtain ⟨hmono, -, -⟩ := refusal_monotone .strict mondayMorning wholeMorning nineToTen
  exact (hmono mondayMorning_contained (by decide)).2 wholeMorning_timesRead

end ScheduleModel

end TerpBuilder

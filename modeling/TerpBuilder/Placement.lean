/-
Where a course is filed against where the view looks for it.

Adding decodes the days string of the first meeting as a whole, with its length
to fall back on; the view scans the days string of every meeting for the code of
the selected day. The first half compares the two decoders on one string. The
second half follows the discussion of a course, which the view can show on a day
only if its course is on the list of that day.
-/
import TerpBuilder.Booking
import TerpBuilder.Visible

set_option autoImplicit false

namespace TerpBuilder

open ScheduleModel (recognisedDays)

/-! ## Two decoders of a days string -/

/-- The days strings on which the chain of `addToSchedule` and the scan of the
view agree: one of the shapes that the chain knows, or a string of another length
than one and two without any code in it. -/
def DecodedAlike (days : String) : Prop :=
  days ∈ recognisedDays ∨ (days.length ≠ 1 ∧ days.length ≠ 2 ∧ ∀ d, ¬ NamesDay d days.toList)

theorem mem_filedDays_of_recognised {days : String} (h : days ∈ recognisedDays) (d : Day) :
    d ∈ filedDays days ↔ NamesDay d days.toList := by
  revert d
  revert days
  unfold recognisedDays
  simp only [List.forall_mem_cons]
  refine ⟨?_, ?_, ?_, ?_, ?_, ?_, ?_, ?_, fun _ h => absurd h List.not_mem_nil⟩ <;>
    intro d <;> cases d <;> decide

section Unrecognised

variable {days : String}

theorem ne_of_not_recognised {shape : String} (hrec : days ∉ recognisedDays) (h : shape ∈ recognisedDays) :
    days ≠ shape := by
  rintro rfl
  exact hrec h

/-- A single character that is no code is filed under Friday all the same. -/
theorem filedDays_of_length_one (hlen : days.length = 1) (hrec : days ∉ recognisedDays) :
    filedDays days = [.Fri] ∧ ¬ NamesDay .Fri days.toList := by
  obtain ⟨c, hc⟩ := List.length_eq_one_iff.mp (String.length_toList.trans hlen)
  have hdays : days = String.ofList [c] := by rw [← hc, String.ofList_toList]
  have hletter : ∀ {x : Char}, String.ofList [x] ∈ recognisedDays → c ≠ x := by
    rintro x hx rfl
    exact hrec (hdays ▸ hx)
  have hM : c ≠ 'M' := hletter (by decide)
  have hW : c ≠ 'W' := hletter (by decide)
  have hF : c ≠ 'F' := hletter (by decide)
  have hfiled : filedDays days = [.Fri] := by
    rw [filedDays, if_neg (ne_of_not_recognised hrec (by decide)), if_neg (ne_of_not_recognised hrec (by decide)),
      if_neg (ne_of_not_recognised hrec (by decide)), if_pos hlen, hc]
    simp [hM, hW]
  refine ⟨hfiled, ?_⟩
  rw [hc]
  simp [NamesDay, Day.code, List.infix_cons_iff, Ne.symm hF]

/-- Two characters that are no code are filed under Thursday all the same. -/
theorem filedDays_of_length_two (hlen : days.length = 2) (hrec : days ∉ recognisedDays) :
    filedDays days = [.Thu] ∧ ¬ NamesDay .Thu days.toList := by
  have hfiled : filedDays days = [.Thu] := by
    rw [filedDays, if_neg (ne_of_not_recognised hrec (by decide)), if_neg (ne_of_not_recognised hrec (by decide)),
      if_neg (ne_of_not_recognised hrec (by decide)), if_neg (by omega), if_pos hlen,
      if_neg (ne_of_not_recognised hrec (by decide))]
  refine ⟨hfiled, ?_⟩
  rintro ⟨-, hcode⟩
  -- the code is as long as the string, so it is the string
  have hall : Day.code .Thu = days.toList := hcode.eq_of_length (String.length_toList.trans hlen).symm
  apply @ne_of_not_recognised _ "Th" hrec (by decide)
  rw [← String.ofList_toList (s := days), ← hall]
  rfl

/-- Any other string is filed nowhere. -/
theorem filedDays_of_unknown (hone : days.length ≠ 1) (htwo : days.length ≠ 2) (hrec : days ∉ recognisedDays) :
    filedDays days = [] := by
  rw [filedDays, if_neg (ne_of_not_recognised hrec (by decide)), if_neg (ne_of_not_recognised hrec (by decide)),
    if_neg (ne_of_not_recognised hrec (by decide)), if_neg hone, if_neg htwo]

end Unrecognised

/-- **The two decoders**: they name the same days exactly for the strings of
`DecodedAlike`. -/
theorem filedDays_iff_named (days : String) :
    (∀ d, d ∈ filedDays days ↔ NamesDay d days.toList) ↔ DecodedAlike days := by
  by_cases hrec : days ∈ recognisedDays
  · exact iff_of_true (mem_filedDays_of_recognised hrec) (Or.inl hrec)
  · rw [DecodedAlike, or_iff_right hrec]
    by_cases hone : days.length = 1
    · obtain ⟨hfiled, hnot⟩ := filedDays_of_length_one hone hrec
      exact iff_of_false (fun h => hnot ((h .Fri).mp (by rw [hfiled]; exact List.mem_singleton_self _)))
        fun h => h.1 hone
    · by_cases htwo : days.length = 2
      · obtain ⟨hfiled, hnot⟩ := filedDays_of_length_two htwo hrec
        exact iff_of_false (fun h => hnot ((h .Thu).mp (by rw [hfiled]; exact List.mem_singleton_self _)))
          fun h => h.2.1 htwo
      · rw [filedDays_of_unknown hone htwo hrec]
        simp [hone, htwo]

namespace ScheduleModel

variable {date : DateFrom} {s s' : ScheduleModel} {course : CourseData}

/-- The lists after an add that was accepted. -/
theorem currSchedule_of_add {m : Meeting} (hm : course.FirstMeeting m)
    (hadd : s.addToSchedule date course = some s') (haccepted : s'.addFailed = false) (d : Day) :
    s'.currSchedule d = (s.fileUnder m.days course).currSchedule d := by
  obtain ⟨m', hm', ⟨-, rfl⟩ | ⟨-, rfl⟩⟩ := addToSchedule_cases hadd
  · -- a refusal sets the flag
    cases haccepted
  · obtain rfl : m' = m := Option.some.inj (hm'.symm.trans hm)
    rfl

/-- **When the scheduler and the view decode a lecture alike.** For an accepted
course whose days string does not end in `T`: on every day, the course is
appended to the list exactly when the scan sets `meetsCurr`, if and only if the
string is one of those that both decoders read alike. -/
theorem decoders_agree_iff (date : DateFrom) (s s' : ScheduleModel) (course : CourseData) (m : Meeting)
    (hm : course.FirstMeeting m) (hadd : s.addToSchedule date course = some s')
    (haccepted : s'.addFailed = false) (hlast : m.days.toList.getLast? ≠ some 'T') :
    (∀ d, s'.currSchedule d = s.currSchedule d ++ [course] ↔ meetsCurr d m.days = some true) ↔
      DecodedAlike m.days := by
  rw [← filedDays_iff_named]
  refine forall_congr' fun d => ?_
  rw [currSchedule_of_add hm hadd haccepted, ← mem_filedDays_iff_appends, meetsCurr_eq d m.days hlast,
    Option.some.injEq, decide_eq_true_iff]

/-- A lecture on Mondays and Fridays. -/
def mondayFriday : CourseData := .section "ARTT100-0101" [.on "MF" "9:00am" "10:00am"]

/-- It is filed under Thursday. -/
theorem decoders_disagree :
    ¬ ∀ (date : DateFrom) (s s' : ScheduleModel) (course : CourseData) (m : Meeting),
      course.FirstMeeting m → s.addToSchedule date course = some s' → s'.addFailed = false →
      m.days.toList.getLast? ≠ some 'T' → ∀ d,
      (s'.currSchedule d = s.currSchedule d ++ [course] ↔ meetsCurr d m.days = some true) := by
  intro h
  have hadd : (empty.addToSchedule .strict mondayFriday).map
      (fun s' => (s'.addFailed, s'.currSchedule .Mon)) = some (false, []) := by decide
  obtain ⟨s', hs', heq⟩ := Option.map_eq_some_iff.mp hadd
  rw [Prod.mk.injEq] at heq
  have hiff := h .strict empty s' mondayFriday (.on "MF" "9:00am" "10:00am") rfl hs' heq.1 (by decide) .Mon
  have happended := hiff.mpr (by decide)
  rw [heq.2] at happended
  cases happended

/-- A lecture on Mondays only. -/
theorem decoders_agree_iff_monday :
    ∃ s', empty.addToSchedule .strict nineToTen = some s' ∧
      ((∀ d, s'.currSchedule d = empty.currSchedule d ++ [nineToTen] ↔ meetsCurr d "M" = some true) ↔
        DecodedAlike "M") := by
  have hadd : (empty.addToSchedule .strict nineToTen).map (·.addFailed) = some false := by decide
  obtain ⟨s', hs', haccepted⟩ := Option.map_eq_some_iff.mp hadd
  exact ⟨s', hs', decoders_agree_iff .strict empty s' nineToTen (.on "M" "9:00am" "10:00am") rfl hs' haccepted
    (by decide)⟩

/-! ## The discussion of a filed course -/

/-- The list of the day holds an entry equal to the course. -/
def Holds (s : ScheduleModel) (d : Day) (course : CourseData) : Prop :=
  ∃ e ∈ s.currSchedule d, (e == course) = true

/-- After filing: the lists of its days hold the course, and the others do if they
did. -/
theorem holds_fileUnder {m : Meeting} (hm : course.FirstMeeting m) (d : Day)
    (h : ∀ d, s'.currSchedule d = (s.fileUnder m.days course).currSchedule d) :
    s'.Holds d course ↔ d ∈ course.filedDays ∨ s.Holds d course := by
  rw [Holds, h d, currSchedule_of_accepted hm]
  by_cases hd : d ∈ course.filedDays
  · rw [if_pos hd]
    exact iff_of_true ⟨course, by simp, CourseData.beq_iff.mpr rfl⟩ (Or.inl hd)
  · rw [if_neg hd, or_iff_right hd]
    exact Iff.rfl

/-- Filing and then deleting on the same days leaves an equal entry where there
was one before. -/
theorem holds_erase_append {l : List CourseData} :
    (∃ e ∈ (l ++ [course]).erase course, (e == course) = true) ↔ ∃ e ∈ l, (e == course) = true := by
  induction l with
  | nil => simp [List.erase_cons, CourseData.beq_iff]
  | cons a l ih =>
      rw [List.cons_append, List.erase_cons]
      by_cases ha : (a == course) = true
      · rw [if_pos ha]
        exact iff_of_true ⟨course, by simp, CourseData.beq_iff.mpr rfl⟩ ⟨a, by simp, ha⟩
      · rw [if_neg ha, List.exists_mem_cons_iff, List.exists_mem_cons_iff, ih]

/-- An add that is accepted and the removal of the same course leave on every list
an equal entry where there was one. -/
theorem holds_add_remove {m : Meeting} (hm : course.FirstMeeting m)
    (h : ∀ d, s'.currSchedule d = (s.fileUnder m.days course).currSchedule d) :
    ∃ s'', s'.removeFromSchedule course = some s'' ∧ ∀ d, s''.Holds d course ↔ s.Holds d course := by
  obtain ⟨s'', hs'', hlists⟩ := removeFromSchedule_currSchedule (s := s') hm
  refine ⟨s'', hs'', fun d => ?_⟩
  rw [Holds, hlists d, h d, currSchedule_of_accepted hm]
  by_cases hd : d ∈ course.filedDays
  · rw [if_pos hd, if_pos hd]
    exact holds_erase_append
  · rw [if_neg hd, if_neg hd]
    exact Iff.rfl

/-- **When a discussion reaches the schedule.** For an accepted course with two
meetings: the list of each day that its discussion names holds the course
afterwards, and after its removal none of them does, if and only if each of these
days is one that the lecture is filed under and held no such section before. -/
theorem discussion_reaches_iff (date : DateFrom) (s s' : ScheduleModel) (course : CourseData) (m n : Meeting)
    (hmeet : course.meeting = [m, n]) (hadd : s.addToSchedule date course = some s')
    (haccepted : s'.addFailed = false) :
    ((∀ d, n.Meets d → s'.Holds d course) ∧
        ∃ s'', s'.removeFromSchedule course = some s'' ∧ ∀ d, n.Meets d → ¬ s''.Holds d course) ↔
      ∀ d, n.Meets d → d ∈ filedDays m.days ∧ ¬ s.Holds d course := by
  have hm : course.FirstMeeting m := CourseData.firstMeeting_of_eq hmeet
  have hlists := currSchedule_of_add hm hadd haccepted
  obtain ⟨s₁, hs₁, hgone⟩ := holds_add_remove hm hlists
  rw [← hm.filedDays_eq]
  constructor
  · rintro ⟨hheld, s'', hs'', hfree⟩ d hd
    obtain rfl : s₁ = s'' := Option.some.inj (hs₁.symm.trans hs'')
    have hnew : ¬ s.Holds d course := fun hold => hfree d hd ((hgone d).mpr hold)
    exact ⟨((holds_fileUnder hm d hlists).mp (hheld d hd)).resolve_right hnew, hnew⟩
  · intro h
    refine ⟨fun d hd => (holds_fileUnder hm d hlists).mpr (Or.inl (h d hd).1), s₁, hs₁, fun d hd => ?_⟩
    exact fun hold => (h d hd).2 ((hgone d).mp hold)

/-- A lecture on Tuesday and Thursday with a discussion on Wednesday. -/
def wednesdayDiscussion : CourseData :=
  .section "STAT400-0101" [.on "TuTh" "2:00pm" "3:15pm", .on "W" "9:00am" "9:50am"]

/-- The discussion is on no list. -/
theorem discussion_not_filed :
    ¬ ∀ (date : DateFrom) (s s' : ScheduleModel) (course : CourseData) (m n : Meeting),
      course.meeting = [m, n] → WellFormedDays m.days → WellFormedDays n.days →
      s.addToSchedule date course = some s' → s'.addFailed = false →
      (∀ d, n.Meets d → s'.Holds d course) ∧
        ∃ s'', s'.removeFromSchedule course = some s'' ∧ ∀ d, n.Meets d → ¬ s''.Holds d course := by
  intro h
  have hadd : (empty.addToSchedule .strict wednesdayDiscussion).map
      (fun s' => (s'.addFailed, s'.currSchedule .Wen)) = some (false, []) := by decide
  obtain ⟨s', hs', heq⟩ := Option.map_eq_some_iff.mp hadd
  rw [Prod.mk.injEq] at heq
  obtain ⟨hheld, -⟩ := h .strict empty s' wednesdayDiscussion _ _ rfl ⟨[.Tue, .Thu], by decide, by decide⟩
    ⟨[.Wen], by decide, by decide⟩ hs' heq.1
  obtain ⟨e, he, -⟩ := hheld .Wen (by decide)
  rw [heq.2] at he
  cases he

/-- A lecture on three days with a discussion on one of them. -/
def fridayDiscussion : CourseData :=
  .section "STAT401-0101" [.on "MWF" "2:00pm" "2:50pm", .on "F" "9:00am" "9:50am"]

theorem discussion_reaches_iff_friday :
    ∃ s', empty.addToSchedule .strict fridayDiscussion = some s' ∧
      (((∀ d, (Meeting.on "F" "9:00am" "9:50am").Meets d → s'.Holds d fridayDiscussion) ∧
          ∃ s'', s'.removeFromSchedule fridayDiscussion = some s'' ∧
            ∀ d, (Meeting.on "F" "9:00am" "9:50am").Meets d → ¬ s''.Holds d fridayDiscussion) ↔
        ∀ d, (Meeting.on "F" "9:00am" "9:50am").Meets d →
          d ∈ filedDays "MWF" ∧ ¬ empty.Holds d fridayDiscussion) := by
  have hadd : (empty.addToSchedule .strict fridayDiscussion).map (·.addFailed) = some false := by decide
  obtain ⟨s', hs', haccepted⟩ := Option.map_eq_some_iff.mp hadd
  exact ⟨s', hs', discussion_reaches_iff .strict empty s' fridayDiscussion (.on "MWF" "2:00pm" "2:50pm") _ rfl
    hs' haccepted⟩

end ScheduleModel

end TerpBuilder

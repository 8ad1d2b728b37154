/-
Which classes the schedule view shows.

The two nested loops of `checkForClass` are one walk over the meetings of the
day, course by course. A meeting that does not meet the day ends the walk with
nothing drawn, although the classes after it have not been looked at; the list
of a day does hold such meetings, since a course is filed with all its meetings
under the days of the first one. So a class is drawn only if everything walked
before it meets the day.
-/
import TerpBuilder.Filing
import TerpBuilder.ScheduleView

set_option autoImplicit false

namespace TerpBuilder

namespace Meeting

/-- Well-formed days and times. -/
structure WellFormed (i : Meeting) : Prop where
  days : WellFormedDays i.days
  start_time : ∃ a : ClockTime, i.start_time = a.text
  end_time : ∃ b : ClockTime, i.end_time = b.text

/-- The days string contains the code of `d`. -/
def Meets (i : Meeting) (d : Day) : Prop := NamesDay d i.days.toList

instance (i : Meeting) (d : Day) : Decidable (i.Meets d) := inferInstanceAs (Decidable (NamesDay _ _))

/-- The start hour under `convertTime` is `t`. -/
def StartsAt (i : Meeting) (t : ℤ) : Prop := (convertTime i.start_time).map Prod.fst = some t

instance (i : Meeting) (t : ℤ) : Decidable (i.StartsAt t) := inferInstanceAs (Decidable (_ = _))

/-- The view of day `d` should show the meeting at hour `t`. -/
def Due (i : Meeting) (d : Day) (t : ℤ) : Prop := i.Meets d ∧ i.StartsAt t

instance (i : Meeting) (d : Day) (t : ℤ) : Decidable (i.Due d t) := inferInstanceAs (Decidable (_ ∧ _))

end Meeting

/-! ## One meeting of the walk -/

section Visit

variable {d : Day} {t : ℤ} {i : Meeting}

theorem convertTime_of_clock {x : String} (h : ∃ a : ClockTime, x = a.text) :
    ∃ hr mn, convertTime x = some (hr, mn) := by
  obtain ⟨a, rfl⟩ := h
  exact convertTime_isSome a.text_splitsAtColon

theorem Meeting.WellFormed.meetsCurr (hi : i.WellFormed) : meetsCurr d i.days = some (decide (i.Meets d)) :=
  meetsCurr_eq d i.days hi.days.getLast?_ne

/-- A meeting of another day ends the walk with nothing drawn. -/
theorem visit_of_not_meets (course : CourseData) (hi : i.WellFormed) (h : ¬ i.Meets d) :
    visit d t course i = some (some .blank) := by
  rw [visit, hi.meetsCurr, decide_eq_false h]
  rfl

/-- A meeting of the day: the hours decide. -/
theorem visit_of_meets (t : ℤ) (course : CourseData) (hi : i.WellFormed) (h : i.Meets d) :
    ∃ hr mn mn', convertTime i.start_time = some (hr, mn) ∧
      visit d t course i = some (if t = hr then some (.block (drawBlock course hr mn mn')) else none) := by
  obtain ⟨hr, mn, hstart⟩ := convertTime_of_clock hi.start_time
  obtain ⟨hr', mn', hend⟩ := convertTime_of_clock hi.end_time
  refine ⟨hr, mn, mn', hstart, ?_⟩
  rw [visit, hi.meetsCurr, decide_eq_true h, hstart, hend]
  simp only [Option.bind_eq_bind, Option.bind_some, if_true]
  by_cases ht : t = hr
  · rw [if_pos ht, if_pos ht]
    rfl
  · rw [if_neg ht, if_neg ht]
    rfl

theorem Meeting.startsAt_iff {hr mn : ℤ} (h : convertTime i.start_time = some (hr, mn)) :
    i.StartsAt t ↔ t = hr := by
  rw [StartsAt, h, Option.map_some, Option.some.injEq]
  exact eq_comm

/-- A meeting that is due ends the walk with a block of its course. -/
theorem visit_of_due (course : CourseData) (hi : i.WellFormed) (h : i.Due d t) :
    ∃ b, visit d t course i = some (some (.block b)) ∧ b.label = course.id := by
  obtain ⟨hr, mn, mn', hstart, hvisit⟩ := visit_of_meets t course hi h.1
  rw [if_pos ((Meeting.startsAt_iff hstart).mp h.2)] at hvisit
  exact ⟨_, hvisit, rfl⟩

/-- A meeting of the day at another hour lets it go on. -/
theorem visit_of_other_hour (course : CourseData) (hi : i.WellFormed) (h : i.Meets d) (hdue : ¬ i.Due d t) :
    visit d t course i = some none := by
  obtain ⟨hr, mn, mn', hstart, hvisit⟩ := visit_of_meets t course hi h
  rwa [if_neg fun ht => hdue ⟨h, (Meeting.startsAt_iff hstart).mpr ht⟩] at hvisit

end Visit

/-! ## The walk -/

namespace ScheduleModel

/-- The meetings of a day with their courses, in the order of the two loops. -/
def walk (s : ScheduleModel) (d : Day) : List (CourseData × Meeting) :=
  (s.currSchedule d).flatMap fun course => course.meeting.map fun i => (course, i)

theorem mem_walk {s : ScheduleModel} {d : Day} {x : CourseData × Meeting} :
    x ∈ s.walk d ↔ x.1 ∈ s.currSchedule d ∧ x.2 ∈ x.1.meeting := by
  obtain ⟨course, i⟩ := x
  simp only [walk, List.mem_flatMap, List.mem_map, Prod.mk.injEq]
  constructor
  · rintro ⟨c, hc, i', hi', rfl, rfl⟩
    exact ⟨hc, hi'⟩
  · rintro ⟨hc, hi⟩
    exact ⟨course, hc, i, hi, rfl, rfl⟩

/-- What one meeting of the walk returns, when it does not trap. -/
def outcome (d : Day) (t : ℤ) (x : CourseData × Meeting) : Option AnyView :=
  (visit d t x.1 x.2).getD none

/-- When nothing on the day traps, the two loops are a search along the walk. -/
theorem checkForClass_eq_walk {s : ScheduleModel} {d : Day} {t : ℤ}
    (h : ∀ x ∈ s.walk d, visit d t x.1 x.2 = some (outcome d t x)) :
    checkForClass s d.rawValue t = some (((s.walk d).findSome? (outcome d t)).getD .blank) := by
  -- the inner loop first
  have hinner : ∀ course ∈ s.currSchedule d, course.meeting.findSomeM? (visit d t course)
      = some (course.meeting.findSome? fun i => outcome d t (course, i)) := by
    intro course hc
    exact findSomeM?_eq_findSome? fun i hi => h (course, i) (mem_walk.mpr ⟨hc, hi⟩)
  rw [checkForClass, dayOf_rawValue, findSomeM?_eq_findSome? hinner, walk, findSome?_flatMap]
  simp only [List.findSome?_map]
  rfl

/-- Every meeting filed under the day is well formed. -/
def WellFormedOn (s : ScheduleModel) (d : Day) : Prop :=
  ∀ course ∈ s.currSchedule d, ∀ i ∈ course.meeting, i.WellFormed

section WellFormedOn

variable {s : ScheduleModel} {d : Day} {t : ℤ}

theorem WellFormedOn.walk (hs : s.WellFormedOn d) {x : CourseData × Meeting} (hx : x ∈ s.walk d) :
    x.2.WellFormed :=
  hs x.1 (mem_walk.mp hx).1 x.2 (mem_walk.mp hx).2

/-- Each meeting of the walk is due and draws its course, or is of the day at
another hour, or is of another day and blanks the view. -/
theorem visit_cases {x : CourseData × Meeting} (hx : x.2.WellFormed) :
    visit d t x.1 x.2 = some (outcome d t x) ∧
      (x.2.Due d t → ∃ b, outcome d t x = some (.block b) ∧ b.label = x.1.id) ∧
      (¬ x.2.Due d t → x.2.Meets d → outcome d t x = none) ∧
      (¬ x.2.Meets d → outcome d t x = some .blank) := by
  -- what is returned is the outcome, so each of the three cases gives both
  have hval : ∀ {v}, visit d t x.1 x.2 = some v → outcome d t x = v := by
    intro v hv
    rw [outcome, hv, Option.getD_some]
  by_cases hmeets : x.2.Meets d
  · by_cases hdue : x.2.Due d t
    · obtain ⟨b, hb, hlabel⟩ := visit_of_due x.1 hx hdue
      exact ⟨hb.trans (by rw [hval hb]), fun _ => ⟨b, hval hb, hlabel⟩, fun h => absurd hdue h,
        fun h => absurd hmeets h⟩
    · have hgo := visit_of_other_hour x.1 hx hmeets hdue
      exact ⟨hgo.trans (by rw [hval hgo]), fun h => absurd h hdue, fun _ _ => hval hgo,
        fun h => absurd hmeets h⟩
  · have hblank := visit_of_not_meets (t := t) x.1 hx hmeets
    exact ⟨hblank.trans (by rw [hval hblank]), fun h => absurd h.1 hmeets,
      fun _ h => absurd h hmeets, fun _ => hval hblank⟩

theorem checkForClass_block_iff (hs : s.WellFormedOn d) (b : Block) :
    checkForClass s d.rawValue t = some (.block b) ↔
      (s.walk d).findSome? (outcome d t) = some (.block b) := by
  rw [checkForClass_eq_walk fun x hx => (visit_cases (hs.walk hx)).1, Option.some.injEq]
  rcases (s.walk d).findSome? (outcome d t) with _ | v <;> simp

/-- The view invents no class: a block comes from a meeting that is due, and
bears the id of its course. -/
theorem block_of_due (hs : s.WellFormedOn d) {b : Block}
    (hb : checkForClass s d.rawValue t = some (.block b)) :
    ∃ course ∈ s.currSchedule d, (∃ i ∈ course.meeting, i.Due d t) ∧ b.label = course.id := by
  obtain ⟨pre, x, post, hsplit, hx, -⟩ :=
    List.findSome?_eq_some_iff.mp ((checkForClass_block_iff hs b).mp hb)
  have hmem : x ∈ s.walk d := by simp [hsplit]
  obtain ⟨-, hdue, hgo, hblank⟩ := visit_cases (d := d) (t := t) (hs.walk hmem)
  by_cases hmeets : x.2.Meets d
  · by_cases hD : x.2.Due d t
    · obtain ⟨b', hb', hlabel⟩ := hdue hD
      rw [hx, Option.some.injEq, AnyView.block.injEq] at hb'
      exact ⟨x.1, (mem_walk.mp hmem).1, ⟨x.2, (mem_walk.mp hmem).2, hD⟩, hb' ▸ hlabel⟩
    · rw [hgo hD hmeets] at hx
      cases hx
  · rw [hblank hmeets] at hx
    cases hx

/-- The meetings walked before the first one that is due. -/
def walkedBefore (s : ScheduleModel) (d : Day) (t : ℤ) : List (CourseData × Meeting) :=
  (s.walk d).takeWhile fun x => ¬ x.2.Due d t

/-- A block is drawn when some meeting is due and all before it are of the
day. -/
theorem block_drawn_iff (hs : s.WellFormedOn d) :
    (∃ b, checkForClass s d.rawValue t = some (.block b)) ↔
      (∃ x ∈ s.walk d, x.2.Due d t) ∧ ∀ x ∈ s.walkedBefore d t, x.2.Meets d := by
  have hhit := findSome?_hit_iff (l := s.walk d) (g := outcome d t) (D := fun x => x.2.Due d t)
    (N := fun x => x.2.Meets d) (H := fun v => ∃ b, v = .block b)
    (fun x hx h => by
      obtain ⟨b, hb, -⟩ := (visit_cases (hs.walk hx)).2.1 h
      exact ⟨_, hb, b, rfl⟩)
    (fun x hx _ h => by
      refine ⟨.blank, (visit_cases (hs.walk hx)).2.2.2 h, ?_⟩
      rintro ⟨b, hb⟩
      cases hb)
    fun x hx => (visit_cases (hs.walk hx)).2.2.1
  rw [walkedBefore, ← hhit]
  constructor
  · rintro ⟨b, hb⟩
    exact ⟨_, (checkForClass_block_iff hs b).mp hb, b, rfl⟩
  · rintro ⟨v, hv, b, rfl⟩
    exact ⟨b, (checkForClass_block_iff hs b).mpr hv⟩

end WellFormedOn

/-! ## What is shown -/

/-- Some course of the day has a meeting that is due at the hour. -/
def SomeDue (s : ScheduleModel) (d : Day) (t : ℤ) : Prop :=
  ∃ course ∈ s.currSchedule d, ∃ i ∈ course.meeting, i.Due d t

theorem someDue_iff_walk {s : ScheduleModel} {d : Day} {t : ℤ} :
    s.SomeDue d t ↔ ∃ x ∈ s.walk d, x.2.Due d t := by
  constructor
  · rintro ⟨course, hc, i, hi, hdue⟩
    exact ⟨(course, i), mem_walk.mpr ⟨hc, hi⟩, hdue⟩
  · rintro ⟨x, hx, hdue⟩
    exact ⟨x.1, (mem_walk.mp hx).1, x.2, (mem_walk.mp hx).2, hdue⟩

/-- **When the view hides no class and invents none.** Over well-formed
meetings: a block is drawn at the hour exactly when some meeting of the day is
due then, and it bears the id of such a course, if and only if everything walked
before the first meeting due meets the day. -/
theorem checkForClass_shows_iff (s : ScheduleModel) (d : Day) (t : ℤ) (hs : s.WellFormedOn d) :
    (((∃ b, checkForClass s d.rawValue t = some (.block b)) ↔ s.SomeDue d t) ∧
      ∀ b, checkForClass s d.rawValue t = some (.block b) →
        ∃ course ∈ s.currSchedule d, (∃ i ∈ course.meeting, i.Due d t) ∧ b.label = course.id) ↔
    (s.SomeDue d t → ∀ x ∈ s.walkedBefore d t, x.2.Meets d) := by
  have hlabel : ∀ b, checkForClass s d.rawValue t = some (.block b) →
      ∃ course ∈ s.currSchedule d, (∃ i ∈ course.meeting, i.Due d t) ∧ b.label = course.id :=
    fun b hb => block_of_due hs hb
  rw [and_iff_left hlabel, block_drawn_iff hs, someDue_iff_walk]
  exact and_iff_left_iff_imp

/-! ## A class that is hidden -/

/-- Lectures on Monday, Wednesday and Friday at nine, a discussion on Tuesday. -/
def withTuesdayDiscussion : CourseData :=
  .section "CMSC132-0101" [.on "MWF" "9:00am" "9:50am", .on "Tu" "10:00am" "10:50am"]

/-- Lectures on the same days at eleven. -/
def atEleven : CourseData := .section "MATH141-0101" [.on "MWF" "11:00am" "11:50am"]

/-- The schedule after both have been added. -/
def hidingSchedule : ScheduleModel :=
  (empty.fileUnder "MWF" withTuesdayDiscussion).fileUnder "MWF" atEleven

theorem hidingSchedule_mon : hidingSchedule.currSchedule .Mon = [withTuesdayDiscussion, atEleven] := by
  decide

theorem hidingSchedule_wellFormedOn : hidingSchedule.WellFormedOn .Mon := by
  have hmwf : WellFormedDays "MWF" := ⟨[.Mon, .Wen, .Fri], by decide, by decide⟩
  have htu : WellFormedDays "Tu" := ⟨[.Tue], by decide, by decide⟩
  intro course hc i hi
  rw [hidingSchedule_mon] at hc
  rcases List.mem_pair.mp hc with rfl | rfl
  · rcases List.mem_pair.mp hi with rfl | rfl
    · exact ⟨hmwf, exists_clock_of_readClock (by decide), exists_clock_of_readClock (by decide)⟩
    · exact ⟨htu, exists_clock_of_readClock (by decide), exists_clock_of_readClock (by decide)⟩
  · rw [List.mem_singleton.mp hi]
    exact ⟨hmwf, exists_clock_of_readClock (by decide), exists_clock_of_readClock (by decide)⟩

/-- The Monday view is blank at eleven: the Tuesday discussion of the first
course ends the walk. -/
theorem checkForClass_hides_class :
    ¬ ∀ (s : ScheduleModel) (d : Day) (t : ℤ), 8 ≤ t → t < 23 → s.WellFormedOn d →
      ((∃ b, checkForClass s d.rawValue t = some (.block b)) ↔ s.SomeDue d t) ∧
        ∀ b, checkForClass s d.rawValue t = some (.block b) →
          ∃ course ∈ s.currSchedule d, (∃ i ∈ course.meeting, i.Due d t) ∧ b.label = course.id := by
  intro h
  have hiff := (h hidingSchedule .Mon 11 (by decide) (by decide) hidingSchedule_wellFormedOn).1
  have hblank : checkForClass hidingSchedule Day.Mon.rawValue 11 = some .blank := by decide
  have hdue : hidingSchedule.SomeDue .Mon 11 := by
    refine ⟨atEleven, ?_, .on "MWF" "11:00am" "11:50am", List.mem_singleton_self _, by decide⟩
    rw [hidingSchedule_mon]
    exact List.mem_pair.mpr (Or.inr rfl)
  obtain ⟨b, hb⟩ := hiff.mpr hdue
  rw [hblank] at hb
  cases hb

/-- The view of the same schedule at nine. -/
theorem checkForClass_shows_iff_nine :
    (((∃ b, checkForClass hidingSchedule Day.Mon.rawValue 9 = some (.block b)) ↔
        hidingSchedule.SomeDue .Mon 9) ∧
      ∀ b, checkForClass hidingSchedule Day.Mon.rawValue 9 = some (.block b) →
        ∃ course ∈ hidingSchedule.currSchedule .Mon,
          (∃ i ∈ course.meeting, i.Due .Mon 9) ∧ b.label = course.id) ↔
    (hidingSchedule.SomeDue .Mon 9 → ∀ x ∈ hidingSchedule.walkedBefore .Mon 9, x.2.Meets .Mon) :=
  checkForClass_shows_iff hidingSchedule .Mon 9 hidingSchedule_wellFormedOn

end ScheduleModel

end TerpBuilder

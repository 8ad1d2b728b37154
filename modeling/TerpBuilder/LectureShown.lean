/-
The lecture on the card against the meeting that is scheduled.

A card searches its section's meetings for the one without a class type and shows
it as the lecture; the schedule takes the first meeting of the array, whatever it
is. Which of the two is first matters only through what the schedule makes of a
meeting in that place: the lists it is filed under, and how each lecture already
filed compares with it. The theorem says that it makes no difference, on any
schedule, exactly when these are the same for both.
-/
import TerpBuilder.Booking
import TerpBuilder.SectionView

set_option autoImplicit false

namespace TerpBuilder

variable {date : DateFrom}

/-- The lists are given in the order of the week, so they are the same when they
have the same days. -/
theorem filedDays_eq_filter (days : String) :
    filedDays days = Day.allCases.filter fun d => d ∈ filedDays days := by
  unfold filedDays
  split_ifs <;> decide

theorem filedDays_eq_of_mem_iff {days days' : String} (h : ∀ d, d ∈ filedDays days ↔ d ∈ filedDays days') :
    filedDays days = filedDays days' := by
  rw [filedDays_eq_filter days, filedDays_eq_filter days']
  exact List.filter_congr fun d _ => decide_eq_decide.mpr (h d)

namespace ScheduleModel

variable {s : ScheduleModel}

/-! ## Being placed alike -/

/-- The schedule makes the same of the two meetings in the first place. -/
def PlacedAlike (date : DateFrom) (p q : Meeting) : Prop :=
  filedDays p.days = filedDays q.days ∧
    (filedDays p.days ≠ [] →
      ∀ k, returnsAt date p.start_time p.end_time k = returnsAt date q.start_time q.end_time k)

theorem lectureLoop_congr {x y x' y' : String} (h : ∀ k, returnsAt date x y k = returnsAt date x' y' k)
    (arr : List CourseData) : lectureLoop date x y arr = lectureLoop date x' y' arr := by
  simp only [lectureLoop_eq_allM, h]

/-! ## Two adds that come out alike -/

/-- The adds of the two courses come out alike: both trap, or both are refused or
both accepted, and then they are appended to the same lists. -/
def AddsAlike (date : DateFrom) (s : ScheduleModel) (a b : CourseData) : Prop :=
  (s.addToSchedule date a = none ∧ s.addToSchedule date b = none) ∨
    ∃ s₁ s₂, s.addToSchedule date a = some s₁ ∧ s.addToSchedule date b = some s₂ ∧
      s₁.addFailed = s₂.addFailed ∧
      ∀ d, s₁.currSchedule d = s.currSchedule d ++ [a] ↔ s₂.currSchedule d = s.currSchedule d ++ [b]

variable {a b : CourseData} {p q : Meeting}

/-- In terms of the verdicts and of the days. -/
theorem addsAlike_iff (hp : a.FirstMeeting p) (hq : b.FirstMeeting q) :
    s.AddsAlike date a b ↔ s.checkConflict date a = s.checkConflict date b ∧
      (s.checkConflict date a = some false → filedDays p.days = filedDays q.days) := by
  have hlists : (∀ d, (s.fileUnder p.days a).currSchedule d = s.currSchedule d ++ [a] ↔
      (s.fileUnder q.days b).currSchedule d = s.currSchedule d ++ [b]) ↔
      filedDays p.days = filedDays q.days := by
    simp only [← mem_filedDays_iff_appends]
    exact ⟨filedDays_eq_of_mem_iff, fun h d => by rw [h]⟩
  have hrefused : ∀ (c : CourseData) (d : Day), ¬ s.currSchedule d = s.currSchedule d ++ [c] := fun c d h => by
    simpa using congrArg List.length h
  rw [AddsAlike, addToSchedule_eq date hp, addToSchedule_eq date hq, ← hlists]
  rcases s.checkConflict date a with _ | _ | _ <;> rcases s.checkConflict date b with _ | _ | _ <;>
    simp [hrefused]

/-- On the empty schedule every course is accepted. -/
theorem checkConflict_empty (hp : a.FirstMeeting p) : empty.checkConflict date a = some false := by
  by_cases hfiled : filedDays p.days = []
  · by_cases hlen : a.meeting.length = 2
    · obtain ⟨n, hmeet⟩ := hp.exists_pair hlen
      rw [checkConflict_of_unfiled date hmeet hfiled]
      split_ifs with hdays
      · rfl
      · exact allM_eq_of_forall hdays fun _ _ => rfl
    · exact checkConflict_of_unfiled_of_length date hp hfiled hlen
  · rw [checkConflict_of_filed date hp hfiled]
    exact allM_eq_of_forall hfiled fun _ _ => rfl

/-- A schedule with one lecture, on every list. -/
def everywhere (k : Meeting) : ScheduleModel :=
  { currSchedule := fun _ => [.section "" [k]], currClasses := [""], addFailed := false }

/-- There the verdict is that of one round. -/
theorem checkConflict_everywhere (hp : a.FirstMeeting p) (hfiled : filedDays p.days ≠ []) (k : Meeting) :
    (everywhere k).checkConflict date a = returnsAt date p.start_time p.end_time k := by
  have hround : ∀ d, (everywhere k).checkLecture date d p.start_time p.end_time
      = returnsAt date p.start_time p.end_time k := by
    intro d
    show lectureLoop date p.start_time p.end_time [.section "" [k]] = _
    rw [lectureLoop_eq_allM, allM_singleton]
    show ((returnsAt date p.start_time p.end_time k).map not).map not = _
    rw [Option.map_map, Bool.involutive_not.comp_self, Option.map_id_fun, id]
  rw [checkConflict_of_filed date hp hfiled]
  exact allM_eq_of_forall hfiled fun d _ => hround d

/-! ## Two orders of the same meetings -/

/-- The verdict looks at the first meeting, and at the second one only when the
first is filed nowhere. Then a course of two meetings is checked by its second,
which the two orders differ in only if both are filed nowhere. -/
theorem checkConflict_congr (hperm : a.meeting.Perm b.meeting) (hp : a.FirstMeeting p)
    (hq : b.FirstMeeting q) (h : PlacedAlike date p q) (s : ScheduleModel) :
    s.checkConflict date a = s.checkConflict date b := by
  by_cases hfiled : filedDays p.days = []
  · have hfiled' : filedDays q.days = [] := h.1 ▸ hfiled
    by_cases hlen : a.meeting.length = 2
    · obtain ⟨n, hab⟩ := hp.exists_pair hlen
      obtain ⟨n', hab'⟩ := hq.exists_pair (hperm.length_eq ▸ hlen)
      rw [checkConflict_of_unfiled date hab hfiled, checkConflict_of_unfiled date hab' hfiled']
      rw [hab, hab'] at hperm
      -- two meetings have two orders
      rcases List.mem_pair.mp (hperm.subset List.mem_cons_self) with rfl | rfl
      · obtain rfl : n = n' := List.singleton_perm_singleton.mp ((List.perm_cons _).mp hperm)
        rfl
      · obtain rfl : n = q :=
          List.singleton_perm_singleton.mp ((List.perm_cons _).mp (hperm.trans (List.Perm.swap _ _ _)))
        rw [if_pos hfiled, if_pos hfiled']
    · rw [checkConflict_of_unfiled_of_length date hp hfiled hlen,
        checkConflict_of_unfiled_of_length date hq hfiled' (hperm.length_eq ▸ hlen)]
  · rw [checkConflict_of_filed date hp hfiled, checkConflict_of_filed date hq (h.1 ▸ hfiled), h.1]
    congr 1
    funext d
    exact lectureLoop_congr (h.2 hfiled) (s.currSchedule d)

/-- Courses with the same meetings in another order come out alike on every
schedule when their first meetings are placed alike, and only then. -/
theorem addsAlike_iff_placedAlike (hperm : a.meeting.Perm b.meeting) (hp : a.FirstMeeting p)
    (hq : b.FirstMeeting q) : (∀ s : ScheduleModel, s.AddsAlike date a b) ↔ PlacedAlike date p q := by
  constructor
  · intro h
    -- the empty schedule shows the days, and a single lecture one round of the loop
    have hdays : filedDays p.days = filedDays q.days :=
      ((addsAlike_iff hp hq).mp (h empty)).2 (checkConflict_empty hp)
    refine ⟨hdays, fun hfiled k => ?_⟩
    have hverdict := ((addsAlike_iff hp hq).mp (h (everywhere k))).1
    rwa [checkConflict_everywhere hp hfiled, checkConflict_everywhere hq (hdays ▸ hfiled)] at hverdict
  · intro h s
    exact (addsAlike_iff hp hq).mpr ⟨checkConflict_congr hperm hp hq h s, fun _ => h.1⟩

/-! ## Well-formed times -/

/-- **What being placed alike means** for meetings with well-formed times, the
start before the end: the same days, and the same times if there are any days. -/
theorem placedAlike_iff_of_proper (hdate : date.ReadsClock) {i j : Span ℕ}
    (hp : clockSpan p.start_time p.end_time = some i) (hi : i.Proper)
    (hq : clockSpan q.start_time q.end_time = some j) (hj : j.Proper) :
    PlacedAlike date p q ↔ filedDays p.days = filedDays q.days ∧
      (filedDays p.days ≠ [] → p.start_time = q.start_time ∧ p.end_time = q.end_time) := by
  refine and_congr_right fun _ => imp_congr_right fun _ => ?_
  constructor
  · intro h
    obtain ⟨a, b, ha, hb, rfl⟩ := clockSpan_eq_some_iff.mp hp
    obtain ⟨c, d, hc, hd, rfl⟩ := clockSpan_eq_some_iff.mp hq
    -- a lecture that takes no time tells which of the two spans hold the point
    have hpoint : ∀ t : ClockTime, Span.Nested ⟨t.minuteOfDay, t.minuteOfDay⟩ ⟨a.minuteOfDay, b.minuteOfDay⟩ ↔
        Span.Nested ⟨t.minuteOfDay, t.minuteOfDay⟩ ⟨c.minuteOfDay, d.minuteOfDay⟩ := by
      intro t
      let k := Meeting.on "M" t.text t.text
      have hk : clockSpan k.start_time k.end_time = some ⟨t.minuteOfDay, t.minuteOfDay⟩ :=
        clockSpan_eq_some_iff.mpr ⟨t, t, rfl, rfl, rfl⟩
      have hread := readSpan_of_clockSpan hdate hk
      have hround := h k
      rwa [returnsAt_eq hread (readSpan_of_clockSpan hdate hp), returnsAt_eq hread (readSpan_of_clockSpan hdate hq),
        Option.some.injEq, decide_eq_decide] at hround
    have hspan := Span.eq_of_nested_point_iff hi hj
      (List.forall_mem_cons.mpr ⟨hpoint a, List.forall_mem_cons.mpr ⟨hpoint b,
        List.forall_mem_cons.mpr ⟨hpoint c, List.forall_mem_singleton.mpr (hpoint d)⟩⟩⟩)
    rw [Span.mk.injEq] at hspan
    rw [ha, hb, hc, hd, ClockTime.minuteOfDay_inj hspan.1, ClockTime.minuteOfDay_inj hspan.2]
    exact ⟨rfl, rfl⟩
  · rintro ⟨hstart, hend⟩ k
    rw [hstart, hend]

/-! ## The card of a section -/

open SectionView

/-- The section with its meetings in another order. -/
def reordered (section_ : SectionResponse) (meetings : List Meeting) : SectionResponse :=
  { section_ with meetings := meetings }

/-- The section with the meeting moved to the front of its array. -/
def movedToFront (section_ : SectionResponse) (lecture : Meeting) : SectionResponse :=
  reordered section_ (lecture :: section_.meetings.erase lecture)

theorem firstMeeting_courseData {info : InfoResponse} {section_ : SectionResponse} {first : Meeting}
    (h : section_.meetings.head? = some first) : (courseData info section_).FirstMeeting first :=
  List.head?_eq_getElem?.symm.trans h

/-- **When the class scheduled is the lecture shown.** For a section whose card
shows a lecture: the adds of the section as it is and with the lecture moved to
the front come out alike on every schedule, if and only if the first meeting of
the array is placed like the lecture; and so do the adds of two orders of the
array that show the same lecture, if and only if their first meetings are placed
alike. -/
theorem lecture_scheduled_iff (date : DateFrom) (info : InfoResponse) (section_ : SectionResponse)
    (first lecture : Meeting) (hfirst : section_.meetings.head? = some first)
    (hlecture : getLecture section_ = some lecture) :
    ((∀ s : ScheduleModel,
          s.AddsAlike date (courseData info section_) (courseData info (movedToFront section_ lecture))) ↔
        PlacedAlike date first lecture) ∧
      ∀ (meetings : List Meeting) (first' : Meeting), meetings.Perm section_.meetings →
        meetings.head? = some first' → getLecture (reordered section_ meetings) = some lecture →
        ((∀ s : ScheduleModel,
            s.AddsAlike date (courseData info section_) (courseData info (reordered section_ meetings))) ↔
          PlacedAlike date first first') := by
  have hp : (courseData info section_).FirstMeeting first := firstMeeting_courseData hfirst
  constructor
  · have hmem : lecture ∈ section_.meetings := List.mem_of_find?_eq_some hlecture
    exact addsAlike_iff_placedAlike (List.perm_cons_erase hmem) hp (firstMeeting_courseData rfl)
  · intro meetings first' hperm hfirst' _
    exact addsAlike_iff_placedAlike hperm.symm hp (firstMeeting_courseData hfirst')

/-- A section whose discussion comes first in the array. -/
def discussionFirst : SectionResponse :=
  { id := "STAT400-0101"
    meetings := [⟨"M", "0101", "IRB", "Discussion", "9:00am", "9:50am"⟩, .on "TuTh" "2:00pm" "3:15pm"]
    open_seats := "3"
    instructors := [] }

def stat400 : InfoResponse := ⟨"STAT400", "Applied Probability and Statistics I", "3", "", ⟨none⟩⟩

/-- The card shows Tuesday and Thursday, and the section is filed under Monday. -/
theorem discussion_scheduled :
    ¬ ∀ (date : DateFrom), date.ReadsClock → ∀ (info : InfoResponse) (section_ : SectionResponse)
      (lecture : Meeting), getLecture section_ = some lecture → ∀ s : ScheduleModel,
      s.AddsAlike date (courseData info section_) (courseData info (movedToFront section_ lecture)) := by
  intro h
  have halike := h .strict DateFrom.strict_readsClock stat400 discussionFirst (.on "TuTh" "2:00pm" "3:15pm")
    (by decide) empty
  have hfirst : (courseData stat400 discussionFirst).FirstMeeting
      ⟨"M", "0101", "IRB", "Discussion", "9:00am", "9:50am"⟩ := firstMeeting_courseData rfl
  have hdays := ((addsAlike_iff hfirst (firstMeeting_courseData rfl)).mp halike).2 (checkConflict_empty hfirst)
  exact absurd hdays (by decide)

/-- The same section with its lecture first in the array. -/
def lectureFirst : SectionResponse := movedToFront discussionFirst (.on "TuTh" "2:00pm" "3:15pm")

theorem lecture_scheduled_iff_first :
    ((∀ s : ScheduleModel, s.AddsAlike .strict (courseData stat400 lectureFirst)
          (courseData stat400 (movedToFront lectureFirst (.on "TuTh" "2:00pm" "3:15pm")))) ↔
        PlacedAlike .strict (.on "TuTh" "2:00pm" "3:15pm") (.on "TuTh" "2:00pm" "3:15pm")) ∧
      ((∀ s : ScheduleModel, s.AddsAlike .strict (courseData stat400 lectureFirst)
          (courseData stat400 (reordered lectureFirst discussionFirst.meetings))) ↔
        PlacedAlike .strict (.on "TuTh" "2:00pm" "3:15pm")
          ⟨"M", "0101", "IRB", "Discussion", "9:00am", "9:50am"⟩) := by
  obtain ⟨hfront, horders⟩ := lecture_scheduled_iff .strict stat400 lectureFirst (.on "TuTh" "2:00pm" "3:15pm")
    (.on "TuTh" "2:00pm" "3:15pm") rfl (by decide)
  exact ⟨hfront, horders discussionFirst.meetings _ (by decide) rfl (by decide)⟩

end ScheduleModel

end TerpBuilder

/-
What the conflict check makes of a discussion.

The second chain of `checkConflict` is reached only when the lecture is filed
under no day at all. A course with an ordinary lecture is let through or refused
on the lecture alone, whatever its discussion overlaps. Where the second chain
is reached it compares the discussion with the second meetings of the courses on
its days, without a look at the days of those, and it reads times such as
"9:00am" with the format "HH:mm"; where that gives nil, the comparison traps.
-/
import TerpBuilder.Booking
import TerpBuilder.Visible

set_option autoImplicit false

namespace TerpBuilder

/-! ## Meetings that collide -/

namespace Meeting

/-- When the meeting takes place. -/
def span (i : Meeting) : Option (Span ℕ) := clockSpan i.start_time i.end_time

/-- Days that are a concatenation of codes, and well-formed times, the start
before the end. -/
structure Regular (i : Meeting) : Prop where
  days : WellFormedDays i.days
  timed : ∃ j, i.span = some j ∧ j.Proper

/-- The two meet on a common day and overlap in time. -/
def Collides (i k : Meeting) : Prop :=
  (∃ d, i.Meets d ∧ k.Meets d) ∧ ∃ a b, i.span = some a ∧ k.span = some b ∧ a.Overlaps b

theorem Regular.clock {i : Meeting} (h : i.Regular) : ∃ a : ClockTime, i.start_time = a.text := by
  obtain ⟨j, hj, -⟩ := h.timed
  obtain ⟨a, -, ha, -, -⟩ := clockSpan_eq_some_iff.mp hj
  exact ⟨a, ha⟩

end Meeting

namespace CourseData

/-- There is a lecture, and every meeting is regular. -/
structure Regular (course : CourseData) : Prop where
  lecture : course.meeting ≠ []
  meetings : ∀ i ∈ course.meeting, i.Regular

theorem Regular.timed {course : CourseData} (h : course.Regular) : course.Timed := by
  obtain ⟨m, hm⟩ := exists_firstMeeting h.lecture
  obtain ⟨j, hj, hp⟩ := (h.meetings m (List.mem_of_getElem? hm)).timed
  exact ⟨j, by rw [lectureSpan, hm, Option.bind_some]; exact hj, hp⟩

end CourseData

namespace ScheduleModel

variable {date : DateFrom} {s : ScheduleModel}

/-- Every course filed anywhere is regular. -/
def AllRegular (s : ScheduleModel) : Prop := ∀ d, ∀ e ∈ s.currSchedule d, e.Regular

theorem AllRegular.allTimed (hs : s.AllRegular) : s.AllTimed := fun d e he => (hs d e he).timed

/-- The lecture or the discussion of some course in the schedule collides with
the meeting. -/
def CollidesWith (s : ScheduleModel) (i : Meeting) : Prop :=
  ∃ d, ∃ e ∈ s.currSchedule d, ∃ k ∈ e.meeting.take 2, k.Collides i

/-! ## One comparison of the discussion loop

A time that "HH:mm" does not accept traps where it is compared; nothing else is
asked of the formatter than that it reads what it accepts rightly. -/

/-- The formatter of `checkDiscussion` accepts the string. -/
def Reads (date : DateFrom) (x : String) : Prop := (date discussionFormatter x).isSome = true

/-- The comparison with the discussion `k` is made and lets the loop go on. -/
def Passes (date : DateFrom) (n k : Meeting) : Prop :=
  (Reads date k.start_time ∧ Reads date n.start_time) ∧ (Reads date k.end_time ∧ Reads date n.end_time) ∧
    ∃ i j, k.span = some i ∧ n.span = some j ∧ i.Staggered j

/-- The comparison with the discussion `k` is made and reports a conflict. Equal
starts are enough, without a look at the ends. -/
def Stops (date : DateFrom) (n k : Meeting) : Prop :=
  (Reads date k.start_time ∧ Reads date n.start_time) ∧
    ∃ i j, k.span = some i ∧ n.span = some j ∧
      (i.start = j.start ∨ ((Reads date k.end_time ∧ Reads date n.end_time) ∧ i.Nested j))

section Comparison

variable {k n : Meeting} {i j : Span ℕ}

theorem passes_iff (hi : k.span = some i) (hj : n.span = some j) :
    Passes date n k ↔ (Reads date k.start_time ∧ Reads date n.start_time) ∧
      (Reads date k.end_time ∧ Reads date n.end_time) ∧ i.Staggered j := by
  simp only [Passes, hi, hj, Option.some.injEq, exists_eq_left', exists_and_left, and_assoc]

theorem stops_iff (hi : k.span = some i) (hj : n.span = some j) :
    Stops date n k ↔ (Reads date k.start_time ∧ Reads date n.start_time) ∧
      (i.start = j.start ∨ ((Reads date k.end_time ∧ Reads date n.end_time) ∧ i.Nested j)) := by
  simp only [Stops, hi, hj, Option.some.injEq, exists_eq_left', exists_and_left]

theorem eq_none_of_not_reads {x y : String} (h : ¬ (Reads date x ∧ Reads date y)) :
    date discussionFormatter x = none ∨ date discussionFormatter y = none := by
  rw [not_and_or] at h
  exact h.imp Option.not_isSome_iff_eq_none.mp Option.not_isSome_iff_eq_none.mp

/-- **One comparison**: it passes, it stops, or it traps. -/
theorem staysClear_discussion (hden : date.Denotes discussionFormatter) (hk : k.Regular)
    (hn : n.Regular) :
    (staysClear date discussionFormatter k n.start_time n.end_time = some true ↔ Passes date n k) ∧
      (staysClear date discussionFormatter k n.start_time n.end_time = some false ↔ Stops date n k) := by
  obtain ⟨i, hi, -⟩ := hk.timed
  obtain ⟨j, hj, -⟩ := hn.timed
  -- what the formatter accepts it reads as the ends of the two spans
  obtain ⟨a, b, ha, hb, hiab⟩ := clockSpan_eq_some_iff.mp hi
  obtain ⟨c, e, hc, he, hjce⟩ := clockSpan_eq_some_iff.mp hj
  have hval : ∀ {x : String} {t : ClockTime}, x = t.text → Reads date x →
      date discussionFormatter x = some t.minuteOfDay := by
    intro x t hx hread
    obtain ⟨m, hm⟩ := Option.isSome_iff_exists.mp hread
    rw [hm, hden t m (hx ▸ hm)]
  rw [passes_iff hi hj, stops_iff hi hj]
  -- in the order in which `&&` and `||` read the four times
  by_cases hstarts : Reads date k.start_time ∧ Reads date n.start_time
  · have hka : date discussionFormatter k.start_time = some i.start := hiab ▸ hval ha hstarts.1
    have hnc : date discussionFormatter n.start_time = some j.start := hjce ▸ hval hc hstarts.2
    by_cases heq : i.start = j.start
    · -- neither `<` nor `>` holds of the starts
      have hst : ¬ i.Staggered j := Span.not_staggered_iff_nested.mpr (Span.nested_of_start_eq heq)
      rw [staysClear_of_starts_eq hka (heq ▸ hnc)]
      simp [hst, hstarts, heq]
    · by_cases hends : Reads date k.end_time ∧ Reads date n.end_time
      · have hkb : date discussionFormatter k.end_time = some i.stop := hiab ▸ hval hb hends.1
        have hne : date discussionFormatter n.end_time = some j.stop := hjce ▸ hval he hends.2
        have hki : readSpan date discussionFormatter k.start_time k.end_time = some i := by
          rw [readSpan, hka, hkb]
          rfl
        have hnj : readSpan date discussionFormatter n.start_time n.end_time = some j := by
          rw [readSpan, hnc, hne]
          rfl
        rw [staysClear_eq hki hnj, ← Span.not_staggered_iff_nested]
        simp [hstarts, hends, heq]
      · rw [staysClear_of_end_unread hka hnc heq (eq_none_of_not_reads hends)]
        simp [hends, heq]
  · rw [staysClear_of_start_unread (eq_none_of_not_reads hstarts)]
    simp [hstarts]

end Comparison

/-! ## The discussion chain -/

/-- The discussions the loop compares with: the second meetings of the courses
that have exactly two. -/
def discussions (arr : List CourseData) : List Meeting :=
  arr.filterMap fun e => if e.meeting.length = 2 then e.meeting[1]? else none

theorem discussions_regular {arr : List CourseData} (harr : ∀ e ∈ arr, e.Regular) :
    ∀ k ∈ discussions arr, k.Regular := by
  intro k hk
  obtain ⟨e, he, hek⟩ := List.mem_filterMap.mp hk
  split_ifs at hek
  exact (harr e he).meetings k (List.mem_of_getElem? hek)

/-- The loop asks of all of them that the comparison passes. -/
theorem discussionLoop_eq (arr : List CourseData) (startTime endTime : String) :
    discussionLoop date startTime endTime arr
      = ((discussions arr).allM fun k => staysClear date discussionFormatter k startTime endTime).map
          not := by
  induction arr with
  | nil => rfl
  | cons e arr ih =>
      by_cases hlen : e.meeting.length = 2
      · obtain ⟨m, k, hmk⟩ := List.length_eq_two.mp hlen
        have hcons : discussions (e :: arr) = k :: discussions arr := by
          rw [discussions, List.filterMap_cons, if_pos hlen, hmk]
          rfl
        rw [discussionLoop, if_pos hlen, hcons, allM_cons_eq_andM, hmk, ih]
        simp only [List.getElem?_cons_succ, List.getElem?_cons_zero, Option.bind_eq_bind, Option.bind_some]
        rcases staysClear date discussionFormatter k startTime endTime with _ | _ | _ <;> rfl
      · have hcons : discussions (e :: arr) = discussions arr := by
          rw [discussions, List.filterMap_cons, if_neg hlen]
          rfl
        rw [discussionLoop, if_neg hlen, hcons]
        exact ih

/-- On the day the discussion `n` is compared with a conflicting one, and all
before it pass. -/
def StopsOn (date : DateFrom) (s : ScheduleModel) (n : Meeting) (d : Day) : Prop :=
  Until (Passes date n) (Stops date n) (discussions (s.currSchedule d))

/-- On the day the discussion `n` passes all comparisons. -/
def PassesOn (date : DateFrom) (s : ScheduleModel) (n : Meeting) (d : Day) : Prop :=
  ∀ k ∈ discussions (s.currSchedule d), Passes date n k

/-- **`checkDiscussion`** on regular meetings. -/
theorem checkDiscussion_iff (hden : date.Denotes discussionFormatter) (hs : s.AllRegular) {n : Meeting}
    (hn : n.Regular) (d : Day) :
    (s.checkDiscussion date d n.start_time n.end_time = some true ↔ s.StopsOn date n d) ∧
      (s.checkDiscussion date d n.start_time n.end_time = some false ↔ s.PassesOn date n d) := by
  have hreg := discussions_regular (hs d)
  rw [checkDiscussion, discussionLoop_eq]
  constructor
  · rw [map_not_eq_some_iff, Bool.not_true, allM_eq_some_false_iff]
    exact until_congr (fun k hk => (staysClear_discussion hden (hreg k hk) hn).1)
      fun k hk => (staysClear_discussion hden (hreg k hk) hn).2
  · rw [map_not_eq_some_iff, Bool.not_false, allM_eq_some_true_iff]
    exact forall₂_congr fun k hk => (staysClear_discussion hden (hreg k hk) hn).1

/-- With "HH:mm" rejecting the am and pm of every well-formed time, no comparison
is ever made. -/
theorem not_stopsOn_of_rejects (hrej : date.RejectsMeridiem) (hs : s.AllRegular) (n : Meeting) (d : Day) :
    ¬ s.StopsOn date n d := by
  intro h
  obtain ⟨k, hk, hstop⟩ := h.exists
  obtain ⟨a, ha⟩ := (discussions_regular (hs d) k hk).clock
  have hread := hstop.1.1
  rw [Reads, ha, hrej a] at hread
  cases hread

/-- Then the only way to pass a day is that it holds no discussion at all. -/
theorem passesOn_iff_of_rejects (hrej : date.RejectsMeridiem) (hs : s.AllRegular) (n : Meeting) (d : Day) :
    s.PassesOn date n d ↔ discussions (s.currSchedule d) = [] := by
  constructor
  · intro h
    apply List.eq_nil_iff_forall_not_mem.mpr
    intro k hk
    obtain ⟨a, ha⟩ := (discussions_regular (hs d) k hk).clock
    have hread := (h k hk).1.1
    rw [Reads, ha, hrej a] at hread
    cases hread
  · intro h k hk
    rw [h] at hk
    exact absurd hk List.not_mem_nil

/-! ## The verdict -/

/-- Every list the course is filed under holds a lecture nested with its
lecture. -/
def LectureRefused (s : ScheduleModel) (course : CourseData) : Prop :=
  ∀ d ∈ course.filedDays, ∃ e ∈ s.currSchedule d, CourseData.Lectures Span.Nested e course

/-- What the check refuses, of the courses with discussion `n`: a filed lecture
that is refused, and, when the lecture is filed nowhere, a discussion that stops
on each of its days. -/
def Refuses (date : DateFrom) (s : ScheduleModel) (course : CourseData) (n : Meeting) : Prop :=
  (course.filedDays ≠ [] ∧ s.LectureRefused course) ∨
    (course.filedDays = [] ∧ filedDays n.days ≠ [] ∧ ∀ d ∈ filedDays n.days, s.StopsOn date n d)

/-- What the check lets through: a filed lecture that is not refused, and, when
the lecture is filed nowhere, a discussion that is filed nowhere either or passes
on one of its days and stops on those before it. -/
def LetsThrough (date : DateFrom) (s : ScheduleModel) (course : CourseData) (n : Meeting) : Prop :=
  (course.filedDays ≠ [] ∧ ¬ s.LectureRefused course) ∨
    (course.filedDays = [] ∧
      (filedDays n.days = [] ∨ Until (s.StopsOn date n) (s.PassesOn date n) (filedDays n.days)))

/-- **`checkConflict` of a course with a discussion.** -/
theorem checkConflict_verdict (hdate : date.ReadsClock) (hden : date.Denotes discussionFormatter)
    (hs : s.AllRegular) {course : CourseData} {m n : Meeting} (hmeet : course.meeting = [m, n])
    (hc : course.Regular) :
    (s.checkConflict date course = some true ↔ s.Refuses date course n) ∧
      (s.checkConflict date course = some false ↔ s.LetsThrough date course n) := by
  have hm : course.FirstMeeting m := CourseData.firstMeeting_of_eq hmeet
  have hn : n.Regular := hc.meetings n (by simp [hmeet])
  rw [Refuses, LetsThrough]
  by_cases hfiled : course.filedDays = []
  · -- the second chain, on the days of the discussion
    rw [checkConflict_of_unfiled date hmeet (hm.filedDays_eq ▸ hfiled)]
    simp only [hfiled, ne_eq, not_true_eq_false, false_and, false_or, true_and]
    by_cases hdays : filedDays n.days = []
    · simp [hdays]
    · rw [if_neg hdays, allM_eq_some_true_iff, allM_eq_some_false_iff]
      simp only [hdays, not_false_eq_true, true_and, false_or]
      exact ⟨forall₂_congr fun d _ => (checkDiscussion_iff hden hs hn d).1,
        until_congr (fun d _ => (checkDiscussion_iff hden hs hn d).1)
          fun d _ => (checkDiscussion_iff hden hs hn d).2⟩
  · -- the first chain, and nothing else is looked at
    obtain ⟨b, hb, hverdict⟩ := checkConflict_iff_nested hdate hs.allTimed hc.timed hfiled
    have hverdict : b = true ↔ s.LectureRefused course := hverdict
    simp only [hfiled, ne_eq, not_false_eq_true, true_and, false_and, or_false, hb, Option.some.injEq]
    rw [← Bool.not_eq_true, hverdict]
    exact ⟨Iff.rfl, Iff.rfl⟩

/-- When the check is right about the discussion `n`. A filed lecture has the
only say; without one the lists of the discussion decide, and a discussion filed
nowhere is let through. -/
def DiscussionHeeded (date : DateFrom) (s : ScheduleModel) (course : CourseData) (n : Meeting) : Prop :=
  (course.filedDays ≠ [] ∧ (s.LectureRefused course ↔ s.CollidesWith n)) ∨
    (course.filedDays = [] ∧ filedDays n.days = [] ∧ ¬ s.CollidesWith n) ∨
    (course.filedDays = [] ∧ filedDays n.days ≠ [] ∧
      ((s.CollidesWith n ∧ ∀ d ∈ filedDays n.days, s.StopsOn date n d) ∨
        (¬ s.CollidesWith n ∧ Until (s.StopsOn date n) (s.PassesOn date n) (filedDays n.days))))

/-- It is right when a discussion that collides meets with a refusal and one that
does not is let through. -/
theorem discussionHeeded_iff {course : CourseData} {n : Meeting} :
    s.DiscussionHeeded date course n ↔
      (s.CollidesWith n → s.Refuses date course n) ∧ (¬ s.CollidesWith n → s.LetsThrough date course n) := by
  rw [DiscussionHeeded, Refuses, LetsThrough]
  by_cases hfiled : course.filedDays = []
  · by_cases hdays : filedDays n.days = []
    · by_cases hcollides : s.CollidesWith n <;> simp [hfiled, hdays, hcollides]
    · by_cases hcollides : s.CollidesWith n <;> simp [hfiled, hdays, hcollides]
  · by_cases hcollides : s.CollidesWith n <;> simp [hfiled, hcollides]

/-- **When discussions are conflict-checked.** The check returns, and with `true`
exactly when the discussion collides with something scheduled, if and only if it
heeds the discussion. -/
theorem checkConflict_discussion_iff (hdate : date.ReadsClock) (hden : date.Denotes discussionFormatter)
    (s : ScheduleModel) (hs : s.AllRegular) (course : CourseData) (m n : Meeting)
    (hmeet : course.meeting = [m, n]) (hc : course.Regular) :
    (∃ b, s.checkConflict date course = some b ∧ (b = true ↔ s.CollidesWith n)) ↔
      s.DiscussionHeeded date course n := by
  obtain ⟨hrefuses, hthrough⟩ := checkConflict_verdict hdate hden hs hmeet hc
  rw [discussionHeeded_iff, ← hrefuses, ← hthrough]
  constructor
  · rintro ⟨b, hb, hiff⟩
    constructor
    · intro hcollides
      rw [hb, hiff.mpr hcollides]
    · intro hfree
      rw [hb, eq_false_of_ne_true fun h => hfree (hiff.mp h)]
  · -- either way the verdict is the one the collision calls for
    rintro ⟨hyes, hno⟩
    by_cases hcollides : s.CollidesWith n
    · exact ⟨true, hyes hcollides, iff_of_true rfl hcollides⟩
    · exact ⟨false, hno hcollides, iff_of_false Bool.false_ne_true hcollides⟩

/-- **With a formatter that rejects am and pm** under "HH:mm", as Foundation's
does, the discussion chain never reports a conflict: it lets a discussion through
when the first of its lists holds no discussion, and traps otherwise. -/
theorem discussionHeeded_iff_of_rejects (hrej : date.RejectsMeridiem) (hs : s.AllRegular)
    {course : CourseData} {n : Meeting} :
    s.DiscussionHeeded date course n ↔
      (course.filedDays ≠ [] ∧ (s.LectureRefused course ↔ s.CollidesWith n)) ∨
        (course.filedDays = [] ∧ ¬ s.CollidesWith n ∧
          ∀ d, (filedDays n.days).head? = some d → discussions (s.currSchedule d) = []) := by
  rw [DiscussionHeeded]
  refine or_congr_right ?_
  rcases hdays : filedDays n.days with _ | ⟨d, ds⟩
  · simp
  · -- no list stops the discussion, so only the first one is looked at
    have hstop : ¬ ∀ d' ∈ d :: ds, s.StopsOn date n d' := fun h =>
      not_stopsOn_of_rejects hrej hs n d (h d List.mem_cons_self)
    rw [until_iff_head? fun d' _ => not_stopsOn_of_rejects hrej hs n d']
    simp only [hstop, List.head?_cons, Option.some.injEq, exists_eq_left', forall_eq',
      passesOn_iff_of_rejects hrej hs n d]
    simp

/-- **A placed lecture that is nested with nothing** on its days: the check lets the
course through, and that is right exactly when the discussion collides with
nothing. -/
theorem discussionHeeded_iff_of_free {course : CourseData} {n : Meeting} (hfiled : course.filedDays ≠ [])
    (hfree : ∀ d ∈ course.filedDays, ∀ e ∈ s.currSchedule d, ¬ CourseData.Lectures Span.Nested e course) :
    s.DiscussionHeeded date course n ↔ ¬ s.CollidesWith n := by
  have hlet : ¬ s.LectureRefused course := by
    intro hrefused
    obtain ⟨d, hd⟩ := List.exists_mem_of_ne_nil _ hfiled
    obtain ⟨e, he, hnested⟩ := hrefused d hd
    exact hfree d hd e he hnested
  simp [DiscussionHeeded, hfiled, hlet]

/-! ## A discussion nobody looks at -/

/-- Lectures on Monday, Wednesday and Friday at nine. -/
def lectureAtNine : CourseData := .section "PHYS161-0101" [.on "MWF" "9:00am" "9:50am"]

/-- An afternoon lecture on Tuesday and Thursday, with a discussion on Monday at
nine. -/
def discussionAtNine : CourseData :=
  .section "CHEM135-0101" [.on "TuTh" "2:00pm" "3:15pm", .on "M" "9:00am" "9:50am"]

theorem wellFormedDays_mwf : WellFormedDays "MWF" := ⟨[.Mon, .Wen, .Fri], by decide, by decide⟩
theorem wellFormedDays_tuTh : WellFormedDays "TuTh" := ⟨[.Tue, .Thu], by decide, by decide⟩
theorem wellFormedDays_m : WellFormedDays "M" := ⟨[.Mon], by decide, by decide⟩

theorem lectureAtNine_regular : lectureAtNine.Regular := by
  refine ⟨List.cons_ne_nil _ _, fun i hi => ?_⟩
  rw [List.mem_singleton.mp hi]
  exact ⟨wellFormedDays_mwf, ⟨540, 590⟩, by decide, by decide⟩

theorem discussionAtNine_regular : discussionAtNine.Regular := by
  refine ⟨List.cons_ne_nil _ _, fun i hi => ?_⟩
  rcases List.mem_pair.mp hi with rfl | rfl
  · exact ⟨wellFormedDays_tuTh, ⟨840, 915⟩, by decide, by decide⟩
  · exact ⟨wellFormedDays_m, ⟨540, 590⟩, by decide, by decide⟩

/-- The schedule after the first of the two has been added. -/
def nineTaken : ScheduleModel := { empty.fileUnder "MWF" lectureAtNine with currClasses := ["PHYS161-0101"] }

theorem nineTaken_reached : run (Call.step .strict) empty [.add lectureAtNine] = some nineTaken := rfl

theorem mem_nineTaken {d : Day} {e : CourseData} :
    e ∈ nineTaken.currSchedule d ↔ d ∈ filedDays "MWF" ∧ e = lectureAtNine := by
  have hlist : nineTaken.currSchedule d = (empty.fileUnder "MWF" lectureAtNine).currSchedule d := rfl
  rw [hlist, fileUnder_currSchedule]
  by_cases hd : d ∈ filedDays "MWF"
  · rw [if_pos hd, empty, List.nil_append, List.mem_singleton]
    exact ⟨fun h => ⟨hd, h⟩, fun h => h.2⟩
  · rw [if_neg hd]
    exact ⟨fun h => absurd h List.not_mem_nil, fun h => absurd h.1 hd⟩

theorem nineTaken_regular : nineTaken.AllRegular :=
  fun _ _ he => (mem_nineTaken.mp he).2 ▸ lectureAtNine_regular

theorem nineTaken_collidesWith_iff {i : Meeting} :
    nineTaken.CollidesWith i ↔ (Meeting.on "MWF" "9:00am" "9:50am").Collides i := by
  constructor
  · rintro ⟨d, e, he, k, hk, h⟩
    obtain rfl := (mem_nineTaken.mp he).2
    rwa [List.mem_singleton.mp hk] at h
  · intro h
    exact ⟨.Mon, lectureAtNine, mem_nineTaken.mpr ⟨by decide, rfl⟩, _, List.mem_singleton_self _, h⟩

/-- The lecture on Tuesday and Thursday is free, and the Monday discussion is
let through on top of the Monday lecture. -/
theorem checkConflict_misses_discussion :
    ¬ ∀ (date : DateFrom), date.ReadsClock → (∀ formatter, date.Denotes formatter) →
      ∀ (calls : List Call) (s : ScheduleModel), run (Call.step date) empty calls = some s → s.AllRegular →
      ∀ (course : CourseData) (m n : Meeting), course.meeting = [m, n] → course.Regular →
      ¬ s.CollidesWith m →
      ∃ b, s.checkConflict date course = some b ∧ (b = true ↔ s.CollidesWith n) := by
  intro h
  have hfree : ¬ nineTaken.CollidesWith (.on "TuTh" "2:00pm" "3:15pm") := by
    rw [nineTaken_collidesWith_iff]
    rintro ⟨⟨d, hd, hd'⟩, -⟩
    revert hd hd'
    cases d <;> decide
  have hcollide : nineTaken.CollidesWith (.on "M" "9:00am" "9:50am") := by
    rw [nineTaken_collidesWith_iff]
    exact ⟨⟨.Mon, by decide, by decide⟩, ⟨540, 590⟩, ⟨540, 590⟩, by decide, by decide, by decide⟩
  obtain ⟨b, hb, hiff⟩ := h .strict DateFrom.strict_readsClock DateFrom.strict_denotes _ nineTaken
    nineTaken_reached nineTaken_regular discussionAtNine _ _ rfl discussionAtNine_regular hfree
  have hfalse : nineTaken.checkConflict .strict discussionAtNine = some false := by decide
  rw [hfalse, Option.some.injEq] at hb
  rw [← hb] at hiff
  exact absurd (hiff.mpr hcollide) Bool.false_ne_true

/-- The same schedule: the lecture is placed, and nothing on its days is nested with
it, so the collision of the discussion is what the verdict misses. -/
theorem checkConflict_discussion_iff_nine :
    (∃ b, nineTaken.checkConflict .strict discussionAtNine = some b ∧
        (b = true ↔ nineTaken.CollidesWith (.on "M" "9:00am" "9:50am"))) ↔
      nineTaken.DiscussionHeeded .strict discussionAtNine (.on "M" "9:00am" "9:50am") :=
  checkConflict_discussion_iff DateFrom.strict_readsClock (DateFrom.strict_denotes _) nineTaken
    nineTaken_regular discussionAtNine (.on "TuTh" "2:00pm" "3:15pm") (.on "M" "9:00am" "9:50am") rfl
    discussionAtNine_regular

end ScheduleModel

end TerpBuilder

/-
What the checks of `ScheduleModel` decide.

The loop of `checkLecture` passes over a lecture exactly when the two spans are
staggered, so its verdict is "some lecture of the day is nested with the new
one". `checkConflict` joins the verdicts of the course's days with `&&`, so its
verdict is that every day has such a lecture. Both are computed here once, for
any formatter that reads the times involved; the two theorems about what the
verdicts ought to be follow.
-/
import TerpBuilder.Filing
import TerpBuilder.Span

set_option autoImplicit false

namespace TerpBuilder

/-! ## The span of a lecture -/

/-- The span between two well-formed times. -/
def clockSpan (startTime endTime : String) : Option (Span ℕ) := do
  let a ← readClock startTime
  let b ← readClock endTime
  return ⟨a.minuteOfDay, b.minuteOfDay⟩

/-- The span between two times as a formatter reads them. -/
def readSpan (date : DateFrom) (formatter : DateFormatter) (startTime endTime : String) :
    Option (Span ℕ) := do
  let a ← date formatter startTime
  let b ← date formatter endTime
  return ⟨a, b⟩

theorem clockSpan_eq_some_iff {x y : String} {i : Span ℕ} :
    clockSpan x y = some i ↔
      ∃ a b : ClockTime, x = a.text ∧ y = b.text ∧ i = ⟨a.minuteOfDay, b.minuteOfDay⟩ := by
  simp only [clockSpan, Option.bind_eq_bind, Option.bind_eq_some_iff, readClock_eq_some_iff,
    Option.pure_def, Option.some.injEq]
  constructor
  · rintro ⟨a, ha, b, hb, rfl⟩
    exact ⟨a, b, ha, hb, rfl⟩
  · rintro ⟨a, b, ha, hb, rfl⟩
    exact ⟨a, ha, b, hb, rfl⟩

/-- "HH:mma" reads well-formed times as the span they denote. -/
theorem readSpan_of_clockSpan {date : DateFrom} (hdate : date.ReadsClock) {x y : String} {i : Span ℕ}
    (h : clockSpan x y = some i) : readSpan date lectureFormatter x y = some i := by
  obtain ⟨a, b, rfl, rfl, rfl⟩ := clockSpan_eq_some_iff.mp h
  rw [readSpan, hdate a, hdate b]
  rfl

namespace CourseData

/-- When the lecture of the course, its first meeting, takes place. -/
def lectureSpan (course : CourseData) : Option (Span ℕ) :=
  course.meeting[0]?.bind fun m => clockSpan m.start_time m.end_time

/-- The same as a formatter reads it. -/
def readLecture (date : DateFrom) (course : CourseData) : Option (Span ℕ) :=
  course.meeting[0]?.bind fun m => readSpan date lectureFormatter m.start_time m.end_time

/-- The lecture times are well formed, the start before the end. -/
def Timed (course : CourseData) : Prop := ∃ i, course.lectureSpan = some i ∧ i.Proper

theorem readLecture_of_lectureSpan {date : DateFrom} (hdate : date.ReadsClock) {course : CourseData}
    {i : Span ℕ} (h : course.lectureSpan = some i) : course.readLecture date = some i := by
  obtain ⟨m, hm, hi⟩ := Option.bind_eq_some_iff.mp h
  rw [readLecture, hm, Option.bind_some]
  exact readSpan_of_clockSpan hdate hi

theorem Timed.readLecture {date : DateFrom} (hdate : date.ReadsClock) {course : CourseData}
    (h : course.Timed) : ∃ i, course.readLecture date = some i := by
  obtain ⟨i, hi, -⟩ := h
  exact ⟨i, readLecture_of_lectureSpan hdate hi⟩

/-- The times of the first meeting are the lecture's. -/
theorem FirstMeeting.readLecture_eq {date : DateFrom} {course : CourseData} {m : Meeting}
    (hm : course.FirstMeeting m) :
    course.readLecture date = readSpan date lectureFormatter m.start_time m.end_time := by
  rw [CourseData.readLecture, hm, Option.bind_some]

/-- The lectures of two courses stand in a relation of spans. -/
def Lectures (R : Span ℕ → Span ℕ → Prop) (a b : CourseData) : Prop :=
  ∃ i j, a.lectureSpan = some i ∧ b.lectureSpan = some j ∧ R i j

end CourseData

/-! ## The lecture check -/

variable {date : DateFrom}

namespace ScheduleModel

/-- Once the four times are read, `continue` means staggered. -/
theorem staysClear_eq {formatter : DateFormatter} {m : Meeting} {x y : String} {i j : Span ℕ}
    (hi : readSpan date formatter m.start_time m.end_time = some i)
    (hj : readSpan date formatter x y = some j) :
    staysClear date formatter m x y = some (decide (i.Staggered j)) := by
  simp only [readSpan, Option.bind_eq_bind, Option.bind_eq_some_iff, Option.pure_def,
    Option.some.injEq] at hi hj
  obtain ⟨a, ha, b, hb, rfl⟩ := hi
  obtain ⟨c, hc, d, hd, rfl⟩ := hj
  -- all four dates are read, so no `!` traps and `&&` and `||` are those of `Bool`
  have hlt : ∀ {u v : String} {k l : ℕ}, date formatter u = some k → date formatter v = some l →
      dateLT date formatter u v = some (decide (k < l)) ∧
        dateGT date formatter u v = some (decide (k > l)) := by
    intro u v k l hu hv
    rw [dateLT, dateGT, hu, hv]
    exact ⟨rfl, rfl⟩
  rw [staysClear, (hlt ha hc).1, (hlt hb hd).1, (hlt ha hc).2, (hlt hb hd).2]
  rw [some_andM_some, some_andM_some, some_orM_some, Option.some.injEq, Bool.eq_iff_iff]
  simp only [Bool.or_eq_true, Bool.and_eq_true, decide_eq_true_eq]
  exact Iff.rfl

/-- A start that is not read traps at once. -/
theorem staysClear_of_start_unread {formatter : DateFormatter} {m : Meeting} {x y : String}
    (h : date formatter m.start_time = none ∨ date formatter x = none) :
    staysClear date formatter m x y = none := by
  have hlt : dateLT date formatter m.start_time x = none := by
    rw [dateLT]
    rcases h with h | h
    · rw [h]
      rfl
    · rw [h]
      rcases date formatter m.start_time with _ | a <;> rfl
  rw [staysClear, hlt, none_andM, none_orM]

/-- Equal starts decide before the ends are read. -/
theorem staysClear_of_starts_eq {formatter : DateFormatter} {m : Meeting} {x y : String} {a : ℕ}
    (hm : date formatter m.start_time = some a) (hx : date formatter x = some a) :
    staysClear date formatter m x y = some false := by
  have hlt : dateLT date formatter m.start_time x = some false := by
    rw [dateLT, hm, hx]
    simp
  have hgt : dateGT date formatter m.start_time x = some false := by
    rw [dateGT, hm, hx]
    simp
  rw [staysClear, hlt, hgt]
  rfl

/-- Otherwise an end that is not read traps. -/
theorem staysClear_of_end_unread {formatter : DateFormatter} {m : Meeting} {x y : String} {a c : ℕ}
    (hm : date formatter m.start_time = some a) (hx : date formatter x = some c) (hne : a ≠ c)
    (h : date formatter m.end_time = none ∨ date formatter y = none) :
    staysClear date formatter m x y = none := by
  have hend : dateLT date formatter m.end_time y = none ∧ dateGT date formatter m.end_time y = none := by
    rw [dateLT, dateGT]
    rcases h with h | h
    · rw [h]
      exact ⟨rfl, rfl⟩
    · rw [h]
      rcases date formatter m.end_time with _ | b <;> exact ⟨rfl, rfl⟩
  have hstart : dateLT date formatter m.start_time x = some (decide (a < c)) ∧
      dateGT date formatter m.start_time x = some (decide (a > c)) := by
    rw [dateLT, dateGT, hm, hx]
    exact ⟨rfl, rfl⟩
  rw [staysClear, hstart.1, hstart.2, hend.1, hend.2]
  -- one of the two starts is strictly first, and its half of `||` goes on to the ends
  rcases Nat.lt_or_gt_of_ne hne with hlt | hgt
  · rw [decide_eq_true hlt]
    rfl
  · rw [decide_eq_false (Nat.not_lt.mpr hgt.le), decide_eq_true hgt]
    rfl

/-- A round of the loop of `checkLecture`, at a filed lecture `k`: whether it
returns with a conflict. -/
def returnsAt (date : DateFrom) (startTime endTime : String) (k : Meeting) : Option Bool :=
  if k.start_time = startTime ∧ k.end_time = endTime then some true
  else (staysClear date lectureFormatter k startTime endTime).map not

/-- The loop asks of every entry that its round goes on. -/
theorem lectureLoop_eq_allM (x y : String) (arr : List CourseData) :
    lectureLoop date x y arr
      = (arr.allM fun e => e.meeting[0]?.bind fun k => (returnsAt date x y k).map not).map not := by
  induction arr with
  | nil => rfl
  | cons e arr ih =>
      rw [lectureLoop, allM_cons_eq_andM]
      rcases e.meeting[0]? with _ | k
      · rfl
      · rw [Option.bind_eq_bind, Option.bind_some, Option.bind_some, returnsAt]
        by_cases heq : k.start_time = x ∧ k.end_time = y
        · rw [if_pos heq, if_pos heq]
          rfl
        · rw [if_neg heq, if_neg heq]
          rcases staysClear date lectureFormatter k x y with _ | _ | _
          · rfl
          · rfl
          · exact ih

/-- A round between times that are read returns when the spans are nested. -/
theorem returnsAt_eq {k : Meeting} {x y : String} {i j : Span ℕ}
    (hi : readSpan date lectureFormatter k.start_time k.end_time = some i)
    (hj : readSpan date lectureFormatter x y = some j) :
    returnsAt date x y k = some (decide (i.Nested j)) := by
  rw [returnsAt]
  by_cases heq : k.start_time = x ∧ k.end_time = y
  · -- the shortcut for equal strings: equal strings read as equal spans
    rw [heq.1, heq.2, hj] at hi
    obtain rfl := Option.some.inj hi
    have hnest : j.Nested j := Or.inl ⟨le_rfl, le_rfl⟩
    rw [if_pos heq, decide_eq_true hnest]
  · rw [if_neg heq, staysClear_eq hi hj, Option.map_some, Option.some.injEq, ← decide_not, decide_eq_decide]
    exact Span.not_staggered_iff_nested

/-- The lecture of `e` is nested with the span `j`. -/
def clashes (date : DateFrom) (e : CourseData) (j : Span ℕ) : Bool :=
  (e.readLecture date).any fun i => decide (i.Nested j)

theorem lectureLoop_eq {arr : List CourseData} {x y : String} {j : Span ℕ}
    (harr : ∀ e ∈ arr, ∃ i, e.readLecture date = some i)
    (hj : readSpan date lectureFormatter x y = some j) :
    lectureLoop date x y arr = some (arr.any fun e => clashes date e j) := by
  have hround : ∀ e ∈ arr,
      (e.meeting[0]?.bind fun k => (returnsAt date x y k).map not) = some (!clashes date e j) := by
    intro e he
    obtain ⟨i, hi⟩ := harr e he
    obtain ⟨k, hk, hread⟩ := Option.bind_eq_some_iff.mp hi
    rw [hk, Option.bind_some, returnsAt_eq hread hj, clashes, hi]
    rfl
  rw [lectureLoop_eq_allM, allM_eq_all hround, Option.map_some, List.not_all_eq_any_not]
  simp only [Bool.not_not]

/-- **`checkLecture`**: some lecture of the day is nested with the new span. -/
theorem checkLecture_eq {s : ScheduleModel} {day : Day} {x y : String} {j : Span ℕ}
    (hread : ∀ e ∈ s.currSchedule day, ∃ i, e.readLecture date = some i)
    (hj : readSpan date lectureFormatter x y = some j) :
    s.checkLecture date day x y = some ((s.currSchedule day).any fun e => clashes date e j) :=
  lectureLoop_eq hread hj

/-! ## Overlap against verdict

Back-to-back lectures are apart and so are not reported, and nested ones are
reported and do overlap. What is left are staggered lectures that overlap: the
loop passes over them. -/

theorem clashes_iff (hdate : date.ReadsClock) {e : CourseData} {i j : Span ℕ}
    (hi : e.lectureSpan = some i) : clashes date e j = true ↔ i.Nested j := by
  rw [clashes, CourseData.readLecture_of_lectureSpan hdate hi]
  exact decide_eq_true_iff

/-- Some lecture of the day is in the relation `R` to the span `j`. -/
def SomeLecture (s : ScheduleModel) (day : Day) (R : Span ℕ → Span ℕ → Prop) (j : Span ℕ) : Prop :=
  ∃ e ∈ s.currSchedule day, ∃ i, e.lectureSpan = some i ∧ R i j

/-- `checkLecture` on well-formed times: nested, not overlapping. -/
theorem checkLecture_iff_nested (hdate : date.ReadsClock) {s : ScheduleModel} {day : Day}
    (htimed : ∀ e ∈ s.currSchedule day, e.Timed) {x y : String} {j : Span ℕ}
    (hj : clockSpan x y = some j) :
    ∃ b, s.checkLecture date day x y = some b ∧ (b = true ↔ s.SomeLecture day Span.Nested j) := by
  have hread : ∀ e ∈ s.currSchedule day, ∃ i, e.readLecture date = some i := fun e he =>
    (htimed e he).readLecture hdate
  refine ⟨_, checkLecture_eq hread (readSpan_of_clockSpan hdate hj), ?_⟩
  rw [List.any_eq_true]
  constructor
  · rintro ⟨e, he, hc⟩
    obtain ⟨i, hi, -⟩ := htimed e he
    exact ⟨e, he, i, hi, (clashes_iff hdate hi).mp hc⟩
  · rintro ⟨e, he, i, hi, hn⟩
    exact ⟨e, he, (clashes_iff hdate hi).mpr hn⟩

/-- **When the day check is exact.** It reports a conflict exactly when some
lecture of the day overlaps the new one, on precisely those days where a
lecture staggered over an end of the new one never stands without another that
is nested with it. -/
theorem checkLecture_exact_iff (hdate : date.ReadsClock) (s : ScheduleModel) (day : Day)
    (htimed : ∀ e ∈ s.currSchedule day, e.Timed) (startTime endTime : String) (j : Span ℕ)
    (hj : clockSpan startTime endTime = some j) (hproper : j.Proper) :
    (s.checkLecture date day startTime endTime = some true ↔ s.SomeLecture day Span.Overlaps j) ↔
      (s.SomeLecture day (fun i j => i.Staggered j ∧ i.Overlaps j) j →
        s.SomeLecture day Span.Nested j) := by
  obtain ⟨b, hb, hverdict⟩ := checkLecture_iff_nested hdate htimed hj
  rw [hb, Option.some.injEq, hverdict]
  constructor
  · rintro h ⟨e, he, i, hi, -, ho⟩
    exact h.mpr ⟨e, he, i, hi, ho⟩
  · intro h
    constructor
    · rintro ⟨e, he, i, hi, hn⟩
      obtain ⟨i', hi', hp⟩ := htimed e he
      obtain rfl : i' = i := Option.some.inj (hi'.symm.trans hi)
      exact ⟨e, he, i', hi, hn.overlaps hp hproper⟩
    · rintro ⟨e, he, i, hi, ho⟩
      -- an overlap the loop passes over is a staggered one; any other it reports itself
      by_cases hst : i.Staggered j
      · exact h ⟨e, he, i, hi, hst, ho⟩
      · exact ⟨e, he, i, hi, Span.not_staggered_iff_nested.mp hst⟩

/-- A Monday lecture from nine to ten. -/
def nineToTen : CourseData := .section "CMSC131-0101" [.on "M" "9:00am" "10:00am"]

/-- The schedule with that lecture only. -/
def mondayMorning : ScheduleModel := empty.fileUnder "M" nineToTen

theorem nineToTen_timed : nineToTen.Timed := ⟨⟨540, 600⟩, by decide, by decide⟩

theorem mem_mondayMorning {d : Day} {e : CourseData} :
    e ∈ mondayMorning.currSchedule d ↔ d = .Mon ∧ e = nineToTen := by
  have hdays : d ∈ filedDays "M" ↔ d = .Mon := by
    rw [show filedDays "M" = [.Mon] by decide, List.mem_singleton]
  rw [mondayMorning, fileUnder_currSchedule]
  by_cases hd : d = .Mon
  · rw [if_pos (hdays.mpr hd), empty, List.nil_append, List.mem_singleton]
    exact ⟨fun h => ⟨hd, h⟩, fun h => h.2⟩
  · rw [if_neg (mt hdays.mp hd)]
    exact ⟨fun h => absurd h List.not_mem_nil, fun h => absurd h.1 hd⟩

theorem mondayMorning_timed (d : Day) : ∀ e ∈ mondayMorning.currSchedule d, e.Timed :=
  fun _ he => (mem_mondayMorning.mp he).2 ▸ nineToTen_timed

/-- A lecture from half past nine to half past ten is let through. -/
theorem checkLecture_misses_staggered :
    ¬ ∀ (date : DateFrom), date.ReadsClock → ∀ (s : ScheduleModel) (day : Day),
      (∀ e ∈ s.currSchedule day, e.Timed) → ∀ (startTime endTime : String) (j : Span ℕ),
      clockSpan startTime endTime = some j → j.Proper →
      (s.checkLecture date day startTime endTime = some true ↔ s.SomeLecture day Span.Overlaps j) := by
  intro h
  have hiff := h .strict DateFrom.strict_readsClock mondayMorning .Mon (mondayMorning_timed .Mon)
    "9:30am" "10:30am" ⟨570, 630⟩ (by decide) (by decide)
  have hfalse : mondayMorning.checkLecture .strict .Mon "9:30am" "10:30am" = some false := by decide
  have hover : mondayMorning.SomeLecture .Mon Span.Overlaps ⟨570, 630⟩ :=
    ⟨nineToTen, mem_mondayMorning.mpr ⟨rfl, rfl⟩, ⟨540, 600⟩, by decide, by decide⟩
  rw [hfalse] at hiff
  exact absurd (hiff.mpr hover) (by decide)

/-- The day check on the same schedule and a lecture from ten to eleven. -/
theorem checkLecture_exact_iff_back_to_back :
    (mondayMorning.checkLecture .strict .Mon "10:00am" "11:00am" = some true ↔
        mondayMorning.SomeLecture .Mon Span.Overlaps ⟨600, 660⟩) ↔
      (mondayMorning.SomeLecture .Mon (fun i j => i.Staggered j ∧ i.Overlaps j) ⟨600, 660⟩ →
        mondayMorning.SomeLecture .Mon Span.Nested ⟨600, 660⟩) :=
  checkLecture_exact_iff DateFrom.strict_readsClock mondayMorning .Mon (mondayMorning_timed .Mon)
    "10:00am" "11:00am" ⟨600, 660⟩ (by decide) (by decide)

/-! ## The conflict check against the placement

`&&` asks for a clash on every day of the course, where one is enough. -/

/-- A lecture filed on the day clashes with the span. -/
def ClashOn (date : DateFrom) (s : ScheduleModel) (j : Span ℕ) (d : Day) : Prop :=
  ∃ e ∈ s.currSchedule d, clashes date e j = true

/-- `checkLecture` in the words of `ClashOn`. -/
theorem checkLecture_iff_clashOn {s : ScheduleModel} {day : Day} {x y : String} {j : Span ℕ}
    (hread : ∀ e ∈ s.currSchedule day, ∃ i, e.readLecture date = some i)
    (hj : readSpan date lectureFormatter x y = some j) :
    s.checkLecture date day x y = some true ↔ s.ClashOn date j day := by
  rw [checkLecture_eq hread hj, Option.some.injEq, List.any_eq_true]
  rfl

/-- **`checkConflict`** of a course filed somewhere: a clash on each of its
days. -/
theorem checkConflict_eq_all {s : ScheduleModel} {course : CourseData} {m : Meeting} {j : Span ℕ}
    (hm : course.FirstMeeting m) (hfiled : filedDays m.days ≠ [])
    (hread : ∀ d, ∀ e ∈ s.currSchedule d, ∃ i, e.readLecture date = some i)
    (hj : course.readLecture date = some j) :
    ∃ b, s.checkConflict date course = some b ∧ (b = true ↔ ∀ d ∈ filedDays m.days, s.ClashOn date j d) := by
  have hj' : readSpan date lectureFormatter m.start_time m.end_time = some j := hm.readLecture_eq ▸ hj
  rw [checkConflict_of_filed date hm hfiled]
  refine ⟨_, allM_eq_all fun d _ => checkLecture_eq (hread d) hj', ?_⟩
  rw [List.all_eq_true]
  exact forall₂_congr fun d _ => List.any_eq_true

/-- **When the check agrees with the placement.** For a single-meeting course
with any days string, `checkConflict` reports a conflict exactly when one of the
lists the course would be appended to has one, if and only if a lecture nested
with it on one of those lists never stands without one on each of them. -/
theorem checkConflict_agrees_iff (date : DateFrom) (s : ScheduleModel) (course : CourseData)
    (m : Meeting) (hone : course.meeting = [m])
    (hread : ∀ d, ∀ e ∈ s.currSchedule d, ∃ i, e.readLecture date = some i)
    (j : Span ℕ) (hj : course.readLecture date = some j) :
    (s.checkConflict date course = some true ↔
      ∃ d, (s.fileUnder m.days course).currSchedule d = s.currSchedule d ++ [course] ∧
        s.checkLecture date d m.start_time m.end_time = some true) ↔
    ∀ d ∈ filedDays m.days, ∀ d' ∈ filedDays m.days, s.ClashOn date j d → s.ClashOn date j d' := by
  have hm : course.FirstMeeting m := CourseData.firstMeeting_of_eq hone
  have hj' : readSpan date lectureFormatter m.start_time m.end_time = some j := hm.readLecture_eq ▸ hj
  -- the lists it would be appended to are those of `filedDays`
  have hplaced : (∃ d, (s.fileUnder m.days course).currSchedule d = s.currSchedule d ++ [course] ∧
      s.checkLecture date d m.start_time m.end_time = some true) ↔
      ∃ d ∈ filedDays m.days, s.ClashOn date j d := by
    refine exists_congr fun d => ?_
    rw [← mem_filedDays_iff_appends, checkLecture_iff_clashOn (hread d) hj']
  rw [hplaced]
  by_cases hfiled : filedDays m.days = []
  · -- filed nowhere: no conflict and no list
    have hlen : course.meeting.length ≠ 2 := by simp [hone]
    rw [checkConflict_of_unfiled_of_length date hm hfiled hlen, hfiled]
    simp
  · obtain ⟨b, hb, hall⟩ := checkConflict_eq_all hm hfiled hread hj
    rw [hb, Option.some.injEq, hall]
    constructor
    · intro h d hd d' hd' hc
      exact h.mpr ⟨d, hd, hc⟩ d' hd'
    · intro h
      -- a course that is filed has a day, so "all of its days" gives "one of them"
      constructor
      · intro hc
        obtain ⟨d, hd⟩ := List.exists_mem_of_ne_nil _ hfiled
        exact ⟨d, hd, hc d hd⟩
      · rintro ⟨d, hd, hc⟩ d' hd'
        exact h d hd d' hd' hc

/-- A Monday and Wednesday lecture at the same time as `nineToTen`. -/
def nineToTenMW : CourseData := .section "MATH140-0101" [.on "MW" "9:00am" "10:00am"]

theorem mondayMorning_read (d : Day) :
    ∀ e ∈ mondayMorning.currSchedule d, ∃ i, e.readLecture .strict = some i :=
  fun e he => (mondayMorning_timed d e he).readLecture DateFrom.strict_readsClock

/-- Monday is taken, Wednesday is not, and the course is let through. -/
theorem checkConflict_misses_one_day :
    ¬ ∀ (date : DateFrom) (s : ScheduleModel) (course : CourseData) (m : Meeting),
      course.meeting = [m] → (∀ d, ∀ e ∈ s.currSchedule d, ∃ i, e.readLecture date = some i) →
      (∃ j, course.readLecture date = some j) →
      (s.checkConflict date course = some true ↔
        ∃ d, (s.fileUnder m.days course).currSchedule d = s.currSchedule d ++ [course] ∧
          s.checkLecture date d m.start_time m.end_time = some true) := by
  intro h
  have hiff := h .strict mondayMorning nineToTenMW (.on "MW" "9:00am" "10:00am") rfl mondayMorning_read
    ⟨⟨540, 600⟩, by decide⟩
  have hfalse : mondayMorning.checkConflict .strict nineToTenMW = some false := by decide
  rw [hfalse] at hiff
  exact absurd (hiff.mpr ⟨.Mon, by decide, by decide⟩) (by decide)

/-- The same course, which is filed on both of its days. -/
theorem checkConflict_agrees_iff_mw :
    (mondayMorning.checkConflict .strict nineToTenMW = some true ↔
      ∃ d, (mondayMorning.fileUnder "MW" nineToTenMW).currSchedule d
          = mondayMorning.currSchedule d ++ [nineToTenMW] ∧
        mondayMorning.checkLecture .strict d "9:00am" "10:00am" = some true) ↔
    ∀ d ∈ filedDays "MW", ∀ d' ∈ filedDays "MW",
      mondayMorning.ClashOn .strict ⟨540, 600⟩ d → mondayMorning.ClashOn .strict ⟨540, 600⟩ d' :=
  checkConflict_agrees_iff .strict mondayMorning nineToTenMW (.on "MW" "9:00am" "10:00am") rfl
    mondayMorning_read ⟨540, 600⟩ (by decide)

end ScheduleModel

end TerpBuilder

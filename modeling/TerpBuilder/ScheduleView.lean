/-
`ScheduleView.swift` and `Utils.swift`: what the schedule view draws.

`checkForClass` walks the courses of the selected day and their meetings, scans
each meeting's days string for the day's code and leaves the walk at the first
meeting that either does not meet that day or starts at the hour asked for.
-/
import TerpBuilder.ScheduleModel
import TerpBuilder.Text
import TerpBuilder.Trap
import Mathlib.Data.Rat.Defs
import Mathlib.Algebra.Order.Field.Rat
import Mathlib.Data.List.Induction

set_option autoImplicit false

namespace TerpBuilder

/-! ## `convertTime` -/

/-- The last two characters. -/
def suffix2 (s : List Char) : List Char := s.drop (s.length - 2)

/-- Converts from "hh:mmam/pm" to (hh, mm). A subscript past the end of `nums`
traps, and so does an overflowing `hr += 12`. -/
def convertTime (t : String) : Option (ℤ × ℤ) := do
  let nums := pieces ':' t.toList
  let hh ← nums[0]?
  let hr := (readInt hh).getD 0
  let mm ← nums[1]?
  let min := (readInt (mm.take 2)).getD 0
  let meridiem := suffix2 mm
  let hr ← if meridiem = ['p', 'm'] ∧ hr ≠ 12 then addInt hr 12 else some hr
  return (hr, min)

example : convertTime "2:30pm" = some (14, 30) := by decide
example : convertTime "12:00am" = some (12, 0) := by decide
example : convertTime "TBA" = none := by decide

/-! ## The scan of a days string -/

/-- One character of the scan: whether it sets `meetsCurr`. `rest` is what
follows it, so `i.days[nextIdx]` is its head, and reading that past the end
traps. -/
def scanChar (currDay : Day) (c : Char) (rest : List Char) : Option Bool := do
  if c.isUpper then
    if c = 'M' ∧ currDay = .Mon then
      return true
    else if ← (pure (c == 'T') <&&> rest.head?.map (· == 'u') <&&> pure (currDay == .Tue)) then
      return true
    else if c = 'W' ∧ currDay = .Wen then
      return true
    else if ← (pure (c == 'T') <&&> rest.head?.map (· == 'h') <&&> pure (currDay == .Thu)) then
      return true
    else if c = 'F' ∧ currDay = .Fri then
      return true
    else
      return false
  else
    return false

/-- The loop over `i.days`. -/
def scanLoop (currDay : Day) (meetsCurr : Bool) : List Char → Option Bool
  | [] => some meetsCurr
  | c :: rest => do
      let sets ← scanChar currDay c rest
      scanLoop currDay (if sets then true else meetsCurr) rest

def meetsCurr (currDay : Day) (days : String) : Option Bool := scanLoop currDay false days.toList

/-! ## What is drawn -/

/-- A block of the schedule: the rectangle, and the course id on it. -/
structure Block where
  label : String
  width : ℚ
  height : ℚ
  offsetY : ℚ
  deriving DecidableEq

inductive AnyView where
  /-- `ZStack { Text("") }` -/
  | blank
  | block (b : Block)
  deriving DecidableEq

def drawBlock (course : CourseData) (startHr startMin endMin : ℤ) : Block :=
  let hrOffset : ℚ := startHr - 8
  let minOffset : ℚ := if startMin ≠ 0 then 40 else 0
  let courseHeight : ℚ := if Int.tmod endMin 10 ≠ 0 then 95 else 65
  { label := course.id
    width := 100
    height := courseHeight
    offsetY := hrOffset * (765 / 10) - 7 + minOffset }

/-- The body of the loop over a course's meetings: `some none` goes on to the
next meeting, `some (some v)` returns `v`. -/
def visit (currDay : Day) (currTime : ℤ) (course : CourseData) (i : Meeting) :
    Option (Option AnyView) := do
  if ← meetsCurr currDay i.days then
    let (startHr, startMin) ← convertTime i.start_time
    let (_, endMin) ← convertTime i.end_time
    if currTime = startHr then
      return some (.block (drawBlock course startHr startMin endMin))
    else
      return none
  else
    -- not the next meeting: the view is left here
    return some .blank

/-- The day whose raw value is selected; Monday when it is nobody's. -/
def dayOf (selectedDay : String) : Day :=
  Day.allCases.foldl (fun currDay day => if selectedDay = day.rawValue then day else currDay) .Mon

def checkForClass (schedule : ScheduleModel) (selectedDay : String) (currTime : ℤ) : Option AnyView := do
  let currDay := dayOf selectedDay
  let returned ← (schedule.currSchedule currDay).findSomeM? fun course =>
    course.meeting.findSomeM? (visit currDay currTime course)
  return returned.getD .blank

theorem dayOf_rawValue (d : Day) : dayOf d.rawValue = d := by
  cases d <;> decide

/-! ## What the scan decides -/

namespace Day

/-- The days a days string can name. -/
def weekdays : List Day := [.Mon, .Tue, .Wen, .Thu, .Fri]

/-- The code of a weekday in a days string; Sunday and Saturday have none. -/
def code : Day → List Char
  | .Mon => ['M'] | .Tue => ['T', 'u'] | .Wen => ['W'] | .Thu => ['T', 'h'] | .Fri => ['F']
  | .Sun => [] | .Sat => []

end Day

/-- The days string contains the code of `d`. -/
def NamesDay (d : Day) (days : List Char) : Prop := d ∈ Day.weekdays ∧ d.code <:+: days

instance (d : Day) (days : List Char) : Decidable (NamesDay d days) :=
  inferInstanceAs (Decidable (_ ∧ _))

/-- A character sets `meetsCurr` when the day's code starts there. A `T` must
not be the last one. -/
theorem scanChar_eq (d : Day) (c : Char) (rest : List Char) (h : c = 'T' → rest ≠ []) :
    scanChar d c rest = some (decide (d ∈ Day.weekdays ∧ d.code <+: c :: rest)) := by
  by_cases hT : c = 'T'
  · -- the character behind the `T` tells Tuesday from Thursday
    obtain ⟨r, rest', rfl⟩ := List.exists_cons_of_ne_nil (h hT)
    subst hT
    have hupper : 'T'.isUpper = true := by decide
    rw [scanChar, if_pos hupper]
    by_cases hu : r = 'u'
    · subst hu
      cases d <;> simp [Day.weekdays, Day.code, List.cons_prefix_cons]
    · by_cases hh : r = 'h'
      · subst hh
        cases d <;> simp [Day.weekdays, Day.code, List.cons_prefix_cons]
      · cases d <;> simp [Day.weekdays, Day.code, List.cons_prefix_cons, hu, hh, Ne.symm hu, Ne.symm hh]
  · -- no second character is looked at: the code has to be the one letter
    have hcode : (d ∈ Day.weekdays ∧ d.code <+: c :: rest) ↔
        (c = 'M' ∧ d = .Mon) ∨ (c = 'W' ∧ d = .Wen) ∨ (c = 'F' ∧ d = .Fri) := by
      cases d <;> simp [Day.weekdays, Day.code, List.cons_prefix_cons, eq_comm, hT]
    have hupper : (c = 'M' ∧ d = .Mon) ∨ (c = 'W' ∧ d = .Wen) ∨ (c = 'F' ∧ d = .Fri) →
        c.isUpper = true := by
      rintro (⟨rfl, -⟩ | ⟨rfl, -⟩ | ⟨rfl, -⟩) <;> decide
    rw [decide_eq_decide.mpr hcode, scanChar]
    by_cases hup : c.isUpper = true
    · rw [if_pos hup]
      by_cases hM : c = 'M' ∧ d = .Mon
      · rw [if_pos hM, decide_eq_true (Or.inl hM)]
        rfl
      · by_cases hW : c = 'W' ∧ d = .Wen
        · simp [hW]
        · by_cases hF : c = 'F' ∧ d = .Fri <;> simp [hM, hW, hF, hT]
    · rw [if_neg hup, decide_eq_false fun hor => hup (hupper hor)]
      rfl

/-- **The scan** of a days string that does not end in `T`: the day's code occurs
in it. -/
theorem scanLoop_eq (d : Day) (b : Bool) (days : List Char) (h : days.getLast? ≠ some 'T') :
    scanLoop d b days = some (b || decide (NamesDay d days)) := by
  induction days generalizing b with
  | nil =>
      have hnone : ¬ NamesDay d [] := by
        rintro ⟨hd, hcode⟩
        revert hd hcode
        cases d <;> decide
      rw [scanLoop, decide_eq_false hnone, Bool.or_false]
  | cons c rest ih =>
      -- neither this character nor the rest ends the string with a `T`
      have hrest : c = 'T' → rest ≠ [] := by
        rintro rfl rfl
        exact h rfl
      have hlast : rest.getLast? ≠ some 'T' := by
        intro hl
        refine h ?_
        rw [List.getLast?_cons, hl]
        rfl
      -- an occurrence of the code starts here or lies in the rest
      have hsplit : NamesDay d (c :: rest) ↔
          (d ∈ Day.weekdays ∧ d.code <+: c :: rest) ∨ NamesDay d rest := by
        rw [NamesDay, List.infix_cons_iff, and_or_left, ← NamesDay]
      rw [scanLoop, scanChar_eq d c rest hrest, Option.bind_eq_bind, Option.bind_some, ih _ hlast,
        Option.some.injEq, Bool.eq_iff_iff]
      simp only [Bool.or_eq_true, decide_eq_true_eq, hsplit]
      split_ifs with hc
      · simp [hc]
      · simp [hc]

theorem meetsCurr_eq (d : Day) (days : String) (h : days.toList.getLast? ≠ some 'T') :
    meetsCurr d days = some (decide (NamesDay d days.toList)) := by
  rw [meetsCurr, scanLoop_eq d false _ h, Bool.false_or]

/-! ## Well-formed strings -/

/-- A concatenation of day codes. -/
def WellFormedDays (days : String) : Prop :=
  ∃ ds : List Day, (∀ d ∈ ds, d ∈ Day.weekdays) ∧ days.toList = ds.flatMap Day.code

/-- No day code ends in `T`. -/
theorem WellFormedDays.getLast?_ne {days : String} (h : WellFormedDays days) :
    days.toList.getLast? ≠ some 'T' := by
  obtain ⟨ds, hds, heq⟩ := h
  rw [heq]
  induction ds using List.reverseRecOn with
  | nil => simp
  | append_singleton ds d _ =>
      have hd := hds d (by simp)
      rw [List.flatMap_append, List.flatMap_singleton, List.getLast?_append]
      revert hd
      cases d <;> simp [Day.weekdays, Day.code]

/-- A time that splits at its colon converts. -/
theorem convertTime_isSome {t : String} (h : SplitsAtColon t.toList) : ∃ hr mn, convertTime t = some (hr, mn) := by
  obtain ⟨hh, mma, heq, ⟨hne, hcolon⟩, ⟨hne', hcolon'⟩, hsmall⟩ := h
  -- the hour is far from the largest `Int`, so `hr += 12` does not overflow
  have hadd : ∃ n, addInt ((readInt hh).getD 0) 12 = some n := by
    refine ⟨_, if_pos ?_⟩
    rcases hr : readInt hh with _ | n
    · decide
    · have hlt := hsmall n hr
      have hin := readInt_inInt hr
      simp only [InInt, Option.getD_some] at hin ⊢
      omega
  obtain ⟨n, hn⟩ := hadd
  rw [convertTime, heq, pieces_append_cons hcolon hne, pieces_of_not_mem hcolon' hne']
  simp only [List.getElem?_cons_zero, List.getElem?_cons_succ, Option.bind_eq_bind, Option.bind_some]
  split_ifs
  · rw [hn]
    exact ⟨_, _, rfl⟩
  · exact ⟨_, _, rfl⟩

end TerpBuilder

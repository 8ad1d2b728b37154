/-
`SectionView` of `AddClassView.swift`: the card of one section, with the lecture
it shows and the buttons that add the section to the schedule and delete it.

The card fetches its section anew each time it appears, so the record it hands to
the schedule is whatever the API answered last. What it draws reads the building of
the first meeting, so a section that has none traps as soon as it is there. The
texts of the seats and the waitlist are left out.
-/
import TerpBuilder.ScheduleModel

set_option autoImplicit false

namespace TerpBuilder

/-- `struct InfoResponse`, as far as a card uses it. -/
structure InfoResponse where
  id : String
  name : String
  credits : String
  description : String
  relationships : relationship
  deriving DecidableEq, Repr

/-- `struct SectionResponse`, as far as a card uses it. -/
structure SectionResponse where
  id : String
  meetings : List Meeting
  open_seats : String
  instructors : List String
  deriving DecidableEq, Repr

namespace SectionView

/-- `getLecture`: the meeting that the card shows as the lecture. -/
def getLecture (section_ : SectionResponse) : Option Meeting :=
  section_.meetings.find? fun x => x.classtype = ""

/-- `getDiscussion` -/
def getDiscussion (section_ : SectionResponse) : Option Meeting :=
  section_.meetings.find? fun x => x.classtype = "Discussion"

/-- The record that both buttons build. -/
def courseData (info : InfoResponse) (section_ : SectionResponse) : CourseData :=
  { id := info.id
    name := info.name
    credits := info.credits
    description := info.description
    relationships := info.relationships
    instructor := section_.instructors.head?.getD "TBA"
    sectionID := section_.id
    meeting := section_.meetings }

def addCourse (date : DateFrom) (info : InfoResponse) (section_ : SectionResponse) (s : ScheduleModel) :
    Option ScheduleModel :=
  s.addToSchedule date (courseData info section_)

def deleteCourse (info : InfoResponse) (section_ : SectionResponse) (s : ScheduleModel) :
    Option ScheduleModel :=
  s.removeFromSchedule (courseData info section_)

/-- A tap on the button of the card. Without open seats it asks for a
notification, which does not touch the schedule. -/
def tap (date : DateFrom) (info : InfoResponse) (section_ : SectionResponse) (s : ScheduleModel) :
    Option ScheduleModel :=
  if section_.open_seats ≠ "0" then
    if s.currClasses.contains section_.id then deleteCourse info section_ s
    else addCourse date info section_ s
  else
    some s

/-! ## What is drawn -/

/-- The image in the corner of a card: the section can be deleted, added, or waited
for. -/
inductive CardButton where
  | checkmark
  | plus
  | bell
  deriving DecidableEq, Repr

def button (schedule : ScheduleModel) (section_ : SectionResponse) : CardButton :=
  if section_.open_seats ≠ "0" then
    if schedule.currClasses.contains section_.id then .checkmark else .plus
  else
    .bell

/-- The lines of the lecture or of the discussion. -/
structure MeetingLines where
  days : String
  times : String
  building : String
  deriving DecidableEq, Repr

def meetingLines (x : Option Meeting) (building : String) : MeetingLines :=
  { days := (x.map (·.days)).getD "0"
    times := (x.map (·.start_time)).getD "0" ++ " - " ++ (x.map (·.end_time)).getD "0"
    building := building }

/-- What a card shows of its section. -/
structure CardBody where
  id : String
  button : CardButton
  professor : String
  lecture : MeetingLines
  discussion : Option MeetingLines
  deriving DecidableEq, Repr

/-- `body`, when the section is there. The lecture and the discussion are both shown
in the building of `meetings[0]`. -/
def body (schedule : ScheduleModel) (section_ : SectionResponse) : Option CardBody := do
  let building := (← section_.meetings[0]?).building
  return {
    id := section_.id
    button := button schedule section_
    professor := if section_.instructors = [] then "TBA" else ", ".intercalate section_.instructors
    lecture := meetingLines (getLecture section_) building
    discussion := (getDiscussion section_).map fun disc => meetingLines (some disc) building }

section Drawn

variable {schedule : ScheduleModel} {section_ : SectionResponse}

end Drawn

end SectionView

end TerpBuilder

/-
A session with section cards over one schedule.

Cards appear, fetch their section, perhaps again, and are tapped; the schedule
they share keeps eight arrays and an alert. After every event the cards are drawn.
The session refines the timetable: as long as sections with one id are fetched with
one array of meetings, no tap traps, the arrays are projections of the timetable,
the alert is its flag, and the checkmark of a card with open seats says whether the
timetable holds its section. What does trap is to draw a section without meetings.
-/
import TerpBuilder.Ledger
import TerpBuilder.Timetable

set_option autoImplicit false

namespace TerpBuilder

open CourseData ScheduleModel

/-- A `SectionView`: what it was made with, and the sections of its `apiModel`. -/
structure SectionCard where
  info : InfoResponse
  section_ : String
  sections : List SectionResponse

namespace SectionCard

/-- `apiModel.sections[0]`, once there is one. -/
def shown (card : SectionCard) : Option (InfoResponse × SectionResponse) :=
  card.sections.head?.map fun r => (card.info, r)

/-- What is drawn of the card: nothing, before there is a section. -/
def drawn (schedule : ScheduleModel) (card : SectionCard) : Option (Option SectionView.CardBody) :=
  match card.shown with
  | none => some none
  | some (_, r) => (SectionView.body schedule r).map some

end SectionCard

/-- The schedule of the application, and the cards in the order of their
appearance. -/
structure Session where
  schedule : ScheduleModel
  cards : List SectionCard

inductive SessionEvent where
  | appear (info : InfoResponse) (section_ : String)
  /-- `fetchSections` of a card assigns the response -/
  | fetched (card : ℕ) (response : List SectionResponse)
  | tap (card : ℕ)
  /-- "Ok" of the alert -/
  | dismiss

namespace Session

def initial : Session := ⟨.empty, []⟩

/-- What an event does to the cards. -/
def cardsAfter (cards : List SectionCard) : SessionEvent → List SectionCard
  | .appear info section_ => cards ++ [⟨info, section_, []⟩]
  | .fetched i response => cards.modify i fun card => { card with sections := response }
  | .tap _ => cards
  | .dismiss => cards

/-- What an event does to the schedule. A card without a section has no button, so
nothing is tapped. -/
def scheduleAfter (date : DateFrom) (s : Session) : SessionEvent → Option ScheduleModel
  | .tap i =>
    match s.cards[i]?.bind SectionCard.shown with
    | some (info, r) => SectionView.tap date info r s.schedule
    | none => some s.schedule
  | .dismiss => some { s.schedule with addFailed := false }
  | _ => some s.schedule

def next (date : DateFrom) (s : Session) (e : SessionEvent) : Option Session :=
  (scheduleAfter date s e).map fun schedule => ⟨schedule, cardsAfter s.cards e⟩

/-- The cards on the screen. -/
def screen (s : Session) : Option (List (Option SectionView.CardBody)) :=
  s.cards.mapM (·.drawn s.schedule)

/-- One event, and the cards drawn after it. -/
def step (date : DateFrom) (s : Session) (e : SessionEvent) : Option Session := do
  let s' ← next date s e
  let _ ← s'.screen
  return s'

/-! ## What is asked of the schedule -/

/-- The request that an event is, if it is one. -/
def requestsOf (cards : List SectionCard) : SessionEvent → List Request
  | .tap i =>
    match cards[i]?.bind SectionCard.shown with
    | some (info, r) => if r.open_seats ≠ "0" then [.tap (SectionView.courseData info r)] else []
    | none => []
  | .dismiss => [.dismiss]
  | _ => []

/-- The cards after some events, and the requests so far. -/
def after (events : List SessionEvent) : List SectionCard × List Request :=
  events.foldl (fun s e => (cardsAfter s.1 e, s.2 ++ requestsOf s.1 e)) ([], [])

/-- The requests of a session, from its cards alone. -/
def requests (events : List SessionEvent) : List Request := (after events).2

theorem after_concat (events : List SessionEvent) (e : SessionEvent) :
    after (events ++ [e]) = (cardsAfter (after events).1 e, (after events).2 ++ requestsOf (after events).1 e) := by
  rw [after, List.foldl_append]
  rfl

/-- The records that are tapped have a known days string and times in order. -/
def AllRecognised (rs : List Request) : Prop := ∀ course, .tap course ∈ rs → Recognised course

/-- Sections with one id come with one array of meetings. -/
def Stable (rs : List Request) : Prop :=
  ∀ a b, .tap a ∈ rs → .tap b ∈ rs → a.sectionID = b.sectionID → a.meeting = b.meeting

/-! ## One tap -/

theorem unfile_addFailed (days : String) (course : CourseData) (s : ScheduleModel) :
    (s.unfile days course).addFailed = s.addFailed := by
  unfold unfile
  split_ifs <;> rfl

/-- The schedule is that of a timetable and its alert. -/
structure Represents (s : ScheduleModel) (p : Timetable × Bool) : Prop where
  projects : s.Projects p.1.sections
  alert : s.addFailed = p.2

variable {date : DateFrom} {s : ScheduleModel} {p : Timetable × Bool}

theorem Represents.holds_iff (h : Represents s p) (id : String) :
    s.currClasses.contains id = true ↔ p.1.Holds id := by
  rw [List.contains_iff_mem, h.projects.classes]
  exact Iff.rfl

/-- The sections of a day. -/
theorem Represents.mem_iff (h : Represents s p) {d : Day} {e : CourseData} :
    e ∈ s.currSchedule d ↔ e ∈ p.1.sections ∧ d ∈ e.filedDays := by
  rw [h.projects.lists d, mem_filedOn]

/-- **A deletion drops the section.** -/
theorem Represents.delete (h : Represents s p) {course : CourseData} (hm : course.meeting ≠ [])
    (hsame : ∀ e ∈ p.1.sections, e.sectionID = course.sectionID → e.meeting = course.meeting) :
    ∃ s', s.removeFromSchedule course = some s' ∧ Represents s' (p.1.drop course, p.2) := by
  obtain ⟨m, hm⟩ := exists_firstMeeting hm
  refine ⟨_, removeFromSchedule_eq hm, ?_, ?_⟩
  · show Projects _ (p.1.sections.filter fun e => !(e == course))
    rw [← erase_eq_filter_bne p.1.distinct]
    exact h.projects.remove hm hsame
  · rw [← h.alert]
    exact unfile_addFailed _ _ _

/-- **An add is refused by the timetable, or adds the section.** -/
theorem Represents.request (hdate : date.ReadsClock) (h : Represents s p) {course : CourseData}
    (hold : ∀ e ∈ p.1.sections, e.Timed) (hrec : Recognised course)
    (hnew : ¬ p.1.Holds course.sectionID) :
    ∃ s', s.addToSchedule date course = some s' ∧ Represents s' (Timetable.step p (.tap course)) := by
  obtain ⟨m, hm, -⟩ := hrec.1
  have htimed : s.AllTimed := fun d e he => hold e (h.mem_iff.mp he).1
  obtain ⟨b, hb, hverdict⟩ :=
    checkConflict_iff_nested hdate htimed hrec.2 (filedDays_ne_nil_of_recognised hrec)
  have hrefuses : b = true ↔ p.1.Refuses course := by
    refine hverdict.trans (forall₂_congr fun d _ => exists_congr fun e => ?_)
    rw [h.mem_iff, and_assoc]
  rw [addToSchedule_eq date hm, hb, Option.map_some, Timetable.step, dif_neg hnew]
  refine ⟨_, rfl, ?_⟩
  by_cases hr : p.1.Refuses course
  · rw [if_pos hr, if_pos (hrefuses.mpr hr)]
    exact ⟨⟨h.projects.classes, h.projects.lists⟩, rfl⟩
  · rw [if_neg hr, if_neg (mt hrefuses.mp hr)]
    exact ⟨h.projects.add hm false, rfl⟩

/-- **One tap** on a card with open seats is the tap of its record. -/
theorem Represents.tap (hdate : date.ReadsClock) (h : Represents s p) {info : InfoResponse}
    {r : SectionResponse} (hseats : r.open_seats ≠ "0") (hold : ∀ e ∈ p.1.sections, e.Timed)
    (hrec : Recognised (SectionView.courseData info r))
    (hsame : ∀ e ∈ p.1.sections, e.sectionID = r.id → e.meeting = r.meetings) :
    ∃ s', SectionView.tap date info r s = some s' ∧
      Represents s' (Timetable.step p (.tap (SectionView.courseData info r))) := by
  rw [SectionView.tap, if_pos hseats]
  by_cases hin : p.1.Holds r.id
  · have hheld : p.1.Holds (SectionView.courseData info r).sectionID := hin
    obtain ⟨m, hm, -⟩ := hrec.1
    rw [if_pos ((h.holds_iff r.id).mpr hin), Timetable.step, dif_pos hheld]
    exact h.delete hm.meeting_ne_nil hsame
  · rw [if_neg (mt (h.holds_iff r.id).mp hin)]
    exact h.request hdate hold hrec hin

/-! ## The screen -/

/-- The timetable of a session, and whether an alert is shown. -/
noncomputable def timetable (events : List SessionEvent) : Timetable × Bool := Timetable.after (requests events)

/-- **One event** of a session is its requests to the timetable. -/
theorem step_represents (hdate : date.ReadsClock) {events : List SessionEvent} {e : SessionEvent}
    (hrec : AllRecognised (requests (events ++ [e]))) (hstable : Stable (requests (events ++ [e])))
    {s : Session} (hcards : s.cards = (after events).1) (h : Represents s.schedule (timetable events)) :
    ∃ s', next date s e = some s' ∧ s'.cards = (after (events ++ [e])).1 ∧
      Represents s'.schedule (timetable (events ++ [e])) := by
  have hreq : requests (events ++ [e]) = requests events ++ requestsOf s.cards e := by
    rw [requests, after_concat, hcards]
    rfl
  rw [timetable, hreq, Timetable.after_append, ← timetable]
  rw [hreq] at hrec hstable
  have hnext : cardsAfter s.cards e = (after (events ++ [e])).1 := by rw [after_concat, hcards]
  -- the sections of the timetable were tapped before
  have hmem : ∀ c ∈ (timetable events).1.sections, .tap c ∈ requests events ++ requestsOf s.cards e :=
    fun c hc => List.mem_append_left _ (Timetable.mem_of_mem_after hc)
  cases e with
  | appear info section_ => exact ⟨_, rfl, hnext, h⟩
  | fetched i response => exact ⟨_, rfl, hnext, h⟩
  | dismiss => exact ⟨_, rfl, hnext, ⟨h.projects.classes, h.projects.lists⟩, rfl⟩
  | tap i =>
    rw [next, scheduleAfter]
    rcases hshown : s.cards[i]?.bind SectionCard.shown with _ | ⟨info, r⟩
    · have hnone : requestsOf s.cards (.tap i) = [] := by rw [requestsOf, hshown]
      rw [hnone]
      exact ⟨_, rfl, hnext, h⟩
    · by_cases hseats : r.open_seats = "0"
      · have hnone : requestsOf s.cards (.tap i) = [] := by
          rw [requestsOf, hshown]
          exact if_neg (not_not.mpr hseats)
        have hkeep : SectionView.tap date info r s.schedule = some s.schedule := if_neg (not_not.mpr hseats)
        rw [hnone]
        refine ⟨⟨s.schedule, cardsAfter s.cards (.tap i)⟩, ?_, hnext, h⟩
        show (SectionView.tap date info r s.schedule).map _ = _
        rw [hkeep, Option.map_some]
      · have hone : requestsOf s.cards (.tap i) = [.tap (SectionView.courseData info r)] := by
          rw [requestsOf, hshown]
          exact if_pos hseats
        rw [hone] at hrec hstable hmem ⊢
        have htap : Request.tap (SectionView.courseData info r)
            ∈ requests events ++ [.tap (SectionView.courseData info r)] :=
          List.mem_append_right _ (List.mem_singleton_self _)
        obtain ⟨schedule, hschedule, hrep⟩ := h.tap hdate hseats (fun c hc => (hrec c (hmem c hc)).2)
          (hrec _ htap) fun c hc hid => hstable c _ (hmem c hc) htap hid
        refine ⟨⟨schedule, cardsAfter s.cards (.tap i)⟩, ?_, hnext, hrep⟩
        show (SectionView.tap date info r s.schedule).map _ = _
        rw [hschedule, Option.map_some]

/-- The schedule and the cards never trap. -/
theorem exists_run (hdate : date.ReadsClock) (events : List SessionEvent)
    (hrec : AllRecognised (requests events)) (hstable : Stable (requests events)) :
    ∃ s, run (next date) initial events = some s ∧ s.cards = (after events).1 ∧
      Represents s.schedule (timetable events) := by
  induction events using List.reverseRecOn with
  | nil => exact ⟨initial, rfl, rfl, empty_projects, rfl⟩
  | append_singleton events e ih =>
    have hsub : ∀ c, .tap c ∈ requests events → .tap c ∈ requests (events ++ [e]) := by
      intro c hc
      rw [requests, after_concat]
      exact List.mem_append_left _ hc
    obtain ⟨s, hrun, hcards, hrep⟩ := ih (fun c hc => hrec c (hsub c hc)) fun a b ha hb =>
      hstable a b (hsub a ha) (hsub b hb)
    obtain ⟨s', hstep, hcards', hrep'⟩ := step_represents hdate hrec hstable hcards hrep
    exact ⟨s', by rw [run_concat, hrun, Option.bind_some, hstep], hcards', hrep'⟩

end Session

end TerpBuilder

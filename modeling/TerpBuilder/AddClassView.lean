/-
The search of `AddClassView.swift`.

The list on the screen is the last filter result or, when that is empty, all
courses. The result is computed when the keyword changes and at no other time, so
it is of the courses there were then, and an empty one is taken for no search at
all. The theorem compares the list with the matches among the courses there are
now, after any sequence of keywords and fetches.
-/
import Mathlib.Data.List.Basic
import Mathlib.Data.List.Induction
import Mathlib.Data.List.Infix

set_option autoImplicit false

namespace TerpBuilder

/-- `struct CourseResponse`. -/
structure CourseResponse where
  id : String
  name : String
  deriving DecidableEq, Repr

/-- `class APIModel`, of which the view shows the courses. -/
structure APIModel where
  courses : List CourseResponse
  deriving DecidableEq, Repr

/-- The state of `AddClassView`. -/
structure AddClassView where
  filteredCourses : List CourseResponse
  search : String
  apiModel : APIModel
  deriving DecidableEq, Repr

namespace AddClassView

/-- A new `AddClassView()`. -/
def initial : AddClassView := { filteredCourses := [], search := "", apiModel := { courses := [] } }

/-! ## The search

`contains text keyword` stands for `text.localizedCaseInsensitiveContains(keyword)`. -/

section Search

variable (contains : String → String → Bool)

/-- The condition of the filter. -/
def isMatch (keyword : String) (course : CourseResponse) : Bool :=
  contains course.id keyword || contains course.name keyword

def preformSearch (view : AddClassView) (keyword : String) : AddClassView :=
  { view with filteredCourses := view.apiModel.courses.filter (isMatch contains keyword) }

/-- The courses that are listed. -/
def courses (view : AddClassView) : List CourseResponse :=
  if view.filteredCourses.isEmpty then view.apiModel.courses else view.filteredCourses

/-- What happens to the view: the text of the search field is set, or a
`fetchCourses` completes. -/
inductive Event where
  | typed (keyword : String)
  | fetched (courses : List CourseResponse)

/-- Setting the text calls `preformSearch` if it is a change. -/
def step (view : AddClassView) : Event → AddClassView
  | .typed keyword =>
      if keyword = view.search then view else preformSearch contains { view with search := keyword } keyword
  | .fetched courses => { view with apiModel := { courses := courses } }

/-- The view after some events. -/
def after (events : List Event) : AddClassView := events.foldl (step contains) initial

@[simp] theorem after_concat (events : List Event) (event : Event) :
    after contains (events ++ [event]) = step contains (after contains events) event := by
  rw [after, List.foldl_append]
  rfl

/-! ## What the result is of -/

/-- One event, with the courses there were when the keyword last changed. -/
def seenStep (seen : AddClassView × List CourseResponse) (event : Event) : AddClassView × List CourseResponse :=
  (step contains seen.1 event,
    match event with
    | .typed keyword => if keyword = seen.1.search then seen.2 else seen.1.apiModel.courses
    | .fetched _ => seen.2)

/-- The courses there were when the keyword last changed. -/
def searched (events : List Event) : List CourseResponse := (events.foldl (seenStep contains) (initial, [])).2

theorem foldl_seenStep (events : List Event) :
    events.foldl (seenStep contains) (initial, []) = (after contains events, searched contains events) := by
  have hview : (events.foldl (seenStep contains) (initial, [])).1 = after contains events := by
    induction events using List.reverseRecOn with
    | nil => rfl
    | append_singleton events event ih =>
        rw [after_concat, ← ih, List.foldl_append]
        rfl
  rw [searched, ← hview]

theorem searched_concat (events : List Event) (event : Event) :
    searched contains (events ++ [event])
      = (seenStep contains (after contains events, searched contains events) event).2 := by
  rw [searched, List.foldl_append, foldl_seenStep]
  rfl

/-- **What the result is of**: the courses there were when the keyword last
changed, whatever has been fetched since. -/
theorem filteredCourses_after (events : List Event) :
    (after contains events).filteredCourses
      = (searched contains events).filter (isMatch contains (after contains events).search) := by
  induction events using List.reverseRecOn with
  | nil => rfl
  | append_singleton events event ih =>
      rw [after_concat, searched_concat]
      cases event with
      | fetched courses => exact ih
      | typed keyword =>
          by_cases hsame : keyword = (after contains events).search
          · -- no change, so no search
            simp only [step, seenStep, if_pos hsame]
            exact ih
          · simp only [step, seenStep, if_neg hsame]
            rfl

/-! ## What is listed -/

/-- A result that is listed when it is not empty, and all items in its place when
it is, against the matches among the items. -/
theorem listed_eq_filter_iff {α : Type*} {p : α → Bool} {items before : List α} :
    (if (before.filter p).isEmpty then items else before.filter p) = items.filter p ↔
      ((∃ a ∈ before, p a = true) ∧ before.filter p = items.filter p) ∨
        ((∀ a ∈ before, p a ≠ true) ∧ ∀ a ∈ items, p a = true) := by
  by_cases hnone : ∀ a ∈ before, p a ≠ true
  · have hempty : before.filter p = [] := List.filter_eq_nil_iff.mpr hnone
    have hno : ¬ ∃ a ∈ before, p a = true := fun ⟨a, ha, hpa⟩ => hnone a ha hpa
    rw [hempty, if_pos List.isEmpty_nil, eq_comm, List.filter_eq_self]
    exact ⟨fun hall => Or.inr ⟨hnone, hall⟩, fun h => h.elim (fun hs => absurd hs.1 hno) And.right⟩
  · have hsome : ∃ a ∈ before, p a = true := by simpa using hnone
    have hne : (before.filter p).isEmpty = false := by
      rw [List.isEmpty_eq_false_iff, ne_eq, List.filter_eq_nil_iff]
      exact hnone
    rw [hne, if_neg Bool.false_ne_true]
    exact ⟨fun heq => Or.inl ⟨hsome, heq⟩, fun h => h.elim And.right fun hn => absurd hn.1 hnone⟩

/-- **When the matches and only the matches are listed.** After any keywords and
fetches in any order the list is the courses there are now, filtered by the
keyword, if and only if a course matched when the keyword last changed and the
matches are still the same, or none did and every course there is now matches. -/
theorem matches_listed_iff (events : List Event) :
    (after contains events).courses
        = (after contains events).apiModel.courses.filter (isMatch contains (after contains events).search) ↔
      ((∃ course ∈ searched contains events, isMatch contains (after contains events).search course = true) ∧
          (searched contains events).filter (isMatch contains (after contains events).search)
            = (after contains events).apiModel.courses.filter (isMatch contains (after contains events).search)) ∨
        ((∀ course ∈ searched contains events, isMatch contains (after contains events).search course ≠ true) ∧
          ∀ course ∈ (after contains events).apiModel.courses,
            isMatch contains (after contains events).search course = true) := by
  rw [courses, filteredCourses_after]
  exact listed_eq_filter_iff

/-- With no fetch since the keyword last changed: a course matches, or there is
none to list. -/
theorem matches_listed_of_fresh {events : List Event}
    (hfresh : searched contains events = (after contains events).apiModel.courses) :
    (after contains events).courses
        = (after contains events).apiModel.courses.filter (isMatch contains (after contains events).search) ↔
      (∃ course ∈ (after contains events).apiModel.courses,
          isMatch contains (after contains events).search course = true) ∨
        (after contains events).apiModel.courses = [] := by
  rw [courses, filteredCourses_after, hfresh, listed_eq_filter_iff]
  constructor
  · rintro (⟨hsome, -⟩ | ⟨hnone, hall⟩)
    · exact Or.inl hsome
    · -- every course matches and none does
      exact Or.inr (List.eq_nil_iff_forall_not_mem.mpr fun course hcourse => hnone course hcourse (hall course hcourse))
  · rintro (hsome | hempty)
    · exact Or.inl ⟨hsome, rfl⟩
    · rw [hempty]
      simp

end Search

/-- Letters compared without their case. -/
def containsIgnoringCase (text keyword : String) : Bool :=
  decide (keyword.toList.map Char.toLower <:+: text.toList.map Char.toLower)

/-- A keyword that no course contains lists them all. -/
theorem no_match_lists_all :
    ¬ ∀ (contains : String → String → Bool) (events : List Event), (after contains events).search ≠ "" →
      (after contains events).courses
        = (after contains events).apiModel.courses.filter (isMatch contains (after contains events).search) := by
  intro h
  have hlisted := h containsIgnoringCase
    [.fetched [⟨"CMSC131", "Object-Oriented Programming I"⟩], .typed "math"] (by decide)
  exact absurd hlisted (by decide)

end AddClassView

end TerpBuilder

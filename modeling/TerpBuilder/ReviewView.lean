/-
`ReviewView.swift` and the review list of `AddClassView.swift`: writing a review
and reading the reviews of a course. The children of a snapshot are read in the
order of their insertion, where the source reads them sorted by their keys; what
that makes of the order of the list is in `Posting`.
-/
import TerpBuilder.Firebase

set_option autoImplicit false

namespace TerpBuilder

/-- The state of `ReviewView`: the form, and whether the alert is shown. -/
structure ReviewView where
  reviewText : String
  course : String
  professor : String
  rating : ℤ
  submitted : Bool
  deriving DecidableEq

namespace ReviewView

/-- A new `ReviewView()`. -/
def initial : ReviewView := ⟨"", "", "", 3, false⟩

/-- The dictionary that is written for a form. -/
def entry (view : ReviewView) : StringDict :=
  [("professor", view.professor), ("review", view.reviewText), ("rating", toString view.rating)]

/-- `upload`, with the view and the database it leaves. `uppercased` stands for
`String.uppercased()`, and `id` is the id the write draws. -/
def upload (uppercased : String → String) (id : PushId) (view : ReviewView) (root : FNode) :
    Option (ReviewView × FNode) :=
  if view.reviewText ≠ "" ∧ view.course ≠ "" then do
    let courses ← reference [] "courses"
    let course ← reference courses (uppercased view.course)
    let ref ← childByAutoId course id
    return ({ view with submitted := true, reviewText := "", course := "", rating := 3, professor := "" },
      root.setAt ref (nodeFrom view.entry))
  else
    some (view, root)

end ReviewView

/-! ## Reading -/

/-- The observer of `loadReviews`: the loop over the children of a snapshot. -/
def handleSnapshot (reviews : List StringDict) (snapshot : FNode) : Option (List StringDict) :=
  snapshot.kids.foldlM (fun reviews child => (asStringDict child.2).map fun childData => reviews ++ [childData])
    reviews

/-- The reviews after the first snapshot has been delivered to `loadReviews`. -/
def loadReviews (root : FNode) (courseId : String) : Option (List StringDict) := do
  let courses ← reference [] "courses"
  let ref ← reference courses courseId
  handleSnapshot [] (root.get ref)

/-- `starView`: which of the five stars are filled. -/
def starView (stars : String) : Option (List Bool) :=
  [1, 2, 3, 4, 5].mapM fun num => (readInt stars.toList).map fun n => decide (num ≤ n)

/-- What `reviewView` shows of one review. -/
structure ReviewCard where
  stars : List Bool
  professor : String
  review : String
  deriving DecidableEq

def reviewCard (review : StringDict) : Option ReviewCard := do
  let stars ← starView (← review.lookup "rating")
  let professor ← review.lookup "professor"
  let text ← review.lookup "review"
  return ⟨stars, "Professor: " ++ professor, text⟩

/-- `reviewView`: the cards of all reviews. -/
def reviewView (reviews : List StringDict) : Option (List ReviewCard) := reviews.mapM reviewCard

theorem handleSnapshot_eq (reviews : List StringDict) (snapshot : FNode) :
    handleSnapshot reviews snapshot
      = (snapshot.kids.mapM fun child => asStringDict child.2).map (reviews ++ ·) :=
  foldlM_append_eq_mapM reviews

/-! ## One review -/

section Entry

variable {view : ReviewView}

/-- What is written casts back to what was put in. -/
theorem asStringDict_entry : asStringDict (nodeFrom view.entry) = some view.entry := by
  have hkeys : isArray ["professor", "review", "rating"] = false := by decide
  simp only [nodeFrom, ReviewView.entry, asStringDict, List.map_cons, List.map_nil, hkeys, Bool.false_eq_true,
    if_false]
  rfl

theorem starView_isSome {rating : ℤ} (h : 1 ≤ rating ∧ rating ≤ 5) : ∃ stars, starView (toString rating) = some stars := by
  have hcases : rating = 1 ∨ rating = 2 ∨ rating = 3 ∨ rating = 4 ∨ rating = 5 := by omega
  rcases hcases with rfl | rfl | rfl | rfl | rfl <;> exact ⟨_, rfl⟩

/-- A review with a rating from one to five is shown without a trap. -/
theorem reviewCard_entry (h : 1 ≤ view.rating ∧ view.rating ≤ 5) :
    ∃ card, reviewCard view.entry = some card ∧
      card.professor = "Professor: " ++ view.professor ∧ card.review = view.reviewText := by
  obtain ⟨stars, hstars⟩ := starView_isSome h
  refine ⟨⟨stars, "Professor: " ++ view.professor, view.reviewText⟩, ?_, rfl, rfl⟩
  have hrating : view.entry.lookup "rating" = some (toString view.rating) := rfl
  have hprofessor : view.entry.lookup "professor" = some view.professor := rfl
  have hreview : view.entry.lookup "review" = some view.reviewText := rfl
  rw [reviewCard, hrating, hprofessor, hreview, Option.bind_eq_bind, Option.bind_some, hstars]
  rfl

end Entry

end TerpBuilder

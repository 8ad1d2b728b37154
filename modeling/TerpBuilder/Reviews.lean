/-
Reviews written and reviews read.

The text of the course is a path: after `uppercased()` its pieces between the
slashes lead below `courses`, and the review is put there under a new id. The
reader of course `c` takes every child of `courses/c` for a review. A text with
the pieces `c` and more puts something under `courses/c` that is none, and from
then on the reader traps; nothing that is written later repairs it. All other
texts leave `courses/c` alone or add a review to it. Nothing here depends on the
order in which the children are read.
-/
import TerpBuilder.ReviewView
import TerpBuilder.Run

set_option autoImplicit false

namespace TerpBuilder

open KeyTree

/-- A tap on the submit button: the form as it is filled in, and the id that the
write draws. -/
structure Submission where
  view : ReviewView
  id : PushId

namespace Submission

variable (uppercased : String → String)

/-- What the submission does to the database. -/
def step (root : FNode) (sub : Submission) : Option FNode :=
  (sub.view.upload uppercased sub.id root).map Prod.snd

/-- The pieces of the course text. -/
def coursePath (sub : Submission) : List String := childFromString [] (uppercased sub.view.course)

/-- A filled-in form: `upload` wants a text and a course, and the stars give a
rating from one to five. -/
structure Filled (sub : Submission) : Prop where
  review : sub.view.reviewText ≠ ""
  course : sub.view.course ≠ ""
  rating : 1 ≤ sub.view.rating ∧ sub.view.rating ≤ 5

/-- The id is not in use where the review is put. -/
def Fresh (root : FNode) (sub : Submission) : Prop :=
  (root.get ("courses" :: sub.coursePath uppercased)).child sub.id.text = none

/-- The node that is written. -/
def review (sub : Submission) : FNode := nodeFrom sub.view.entry

theorem isComponent_courses : IsComponent "courses" := ⟨by decide, by decide⟩

variable {uppercased}

/-- **What a submission writes**: its review at its path, and nothing else. -/
theorem step_eq {root root' : FNode} {sub : Submission} (hfilled : sub.Filled)
    (h : sub.step uppercased root = some root') :
    root' = root.setAt ("courses" :: (sub.coursePath uppercased ++ [sub.id.text])) sub.review := by
  rw [step, ReviewView.upload, if_pos ⟨hfilled.review, hfilled.course⟩,
    reference_of_isComponent isComponent_courses, Option.bind_eq_bind, Option.bind_some] at h
  obtain ⟨⟨view, root₁⟩, hupload, hroot⟩ := Option.map_eq_some_iff.mp h
  obtain ⟨path, hpath, hwrite⟩ := Option.bind_eq_some_iff.mp hupload
  rw [childByAutoId_eq, Option.bind_some] at hwrite
  unfold reference at hpath
  split_ifs at hpath
  have hcourse : path = "courses" :: sub.coursePath uppercased := (Option.some.inj hpath).symm
  rw [hcourse] at hwrite
  rw [← hroot]
  exact (congrArg Prod.snd (Option.some.inj hwrite)).symm

/-- A text that the validation accepts is written. -/
theorem exists_step (root : FNode) {sub : Submission} (hfilled : sub.Filled)
    (hvalid : isValidPathString (uppercased sub.view.course) = true) :
    ∃ root', sub.step uppercased root = some root' := by
  rw [step, ReviewView.upload, if_pos ⟨hfilled.review, hfilled.course⟩,
    reference_of_isComponent isComponent_courses, Option.bind_eq_bind, Option.bind_some, reference,
    if_pos hvalid, Option.bind_some, childByAutoId_eq]
  exact ⟨_, rfl⟩

end Submission

/-! ## The children of a course -/

/-- The children of `courses/c`. -/
def reviewsOf (root : FNode) (c : String) : List (String × FNode) := (root.get ["courses", c]).kids

/-- A child that the reader cannot cast. -/
def Spoilt (root : FNode) (c : String) : Prop := ∃ x ∈ reviewsOf root c, asStringDict x.2 = none

namespace Submission

variable {uppercased : String → String} {c : String} {root root' : FNode} {sub : Submission}

/-- The text does not lead below `c`, and the id is not taken for a course. -/
def Shallow (uppercased : String → String) (c : String) (sub : Submission) : Prop :=
  (∀ r rest, sub.coursePath uppercased ≠ c :: r :: rest) ∧
    (sub.coursePath uppercased = [] → sub.id.text ≠ c)

theorem reviewsOf_step (hfilled : sub.Filled) (h : sub.step uppercased root = some root') :
    reviewsOf root' c = (((root.get ["courses"]).setAt (sub.coursePath uppercased ++ [sub.id.text])
      sub.review).get [c]).kids := by
  rw [step_eq hfilled h, reviewsOf, get_setAt_cons]

/-- The text is `c`: the review is added. -/
theorem reviewsOf_step_self (hfilled : sub.Filled) (hfresh : sub.Fresh uppercased root)
    (h : sub.step uppercased root = some root') (hpath : sub.coursePath uppercased = [c]) :
    reviewsOf root' c = reviewsOf root c ++ [(sub.id.text, sub.review)] := by
  have hlookup : (reviewsOf root c).lookup sub.id.text = none := by
    have := hfresh
    rwa [Fresh, hpath] at this
  rw [reviewsOf_step hfilled h, hpath, List.singleton_append, get_setAt_cons, KeyTree.get, kids_setAt_cons]
  exact insertKid_of_lookup_eq_none hlookup

/-- The text leads somewhere else: nothing changes. -/
theorem reviewsOf_step_other (hfilled : sub.Filled) (hshallow : sub.Shallow uppercased c)
    (h : sub.step uppercased root = some root') (hpath : sub.coursePath uppercased ≠ [c]) :
    reviewsOf root' c = reviewsOf root c := by
  rw [reviewsOf_step hfilled h]
  rcases hcourse : sub.coursePath uppercased with _ | ⟨c', rest⟩
  · -- no piece at all: the review lies under `courses` itself
    rw [List.nil_append, get_setAt_of_ne (Ne.symm (hshallow.2 hcourse))]
    rfl
  · have hne : c ≠ c' := by
      rintro rfl
      rcases rest with _ | ⟨r, rest⟩
      · exact hpath hcourse
      · exact hshallow.1 r rest hcourse
    rw [List.cons_append, get_setAt_of_ne hne]
    rfl

/-- A review that is no child of a course, but holds a review of its own. -/
theorem asStringDict_setAt_below (q : String) (qs : List String) (sub : Submission) (t : FNode) :
    asStringDict (t.setAt (q :: qs) sub.review) = none :=
  asStringDict_of_node_kid (mem_insertKid_self q _ t.kids) (value?_setAt qs _ rfl)

/-- A text that leads below `c` spoils it. -/
theorem spoilt_of_not_shallow (hfilled : sub.Filled) (hdeep : ¬ sub.Shallow uppercased c)
    (h : sub.step uppercased root = some root') : Spoilt root' c := by
  rw [Shallow, not_and_or] at hdeep
  rw [Spoilt, reviewsOf_step hfilled h]
  rcases hdeep with hdeep | hid
  · simp only [not_forall, not_not] at hdeep
    obtain ⟨r, rest, hpath⟩ := hdeep
    -- `r` becomes a child of `courses/c`, and the review lies below it
    obtain ⟨q, qs, hq⟩ := List.exists_cons_of_ne_nil (List.concat_ne_nil sub.id.text rest)
    rw [hpath, List.cons_append, List.cons_append, hq, get_setAt_cons, KeyTree.get, kids_setAt_cons]
    exact ⟨_, mem_insertKid_self r _ _, asStringDict_setAt_below q qs sub _⟩
  · simp only [not_forall, not_not] at hid
    obtain ⟨hpath, hc⟩ := hid
    -- the review itself is taken for a course, its three strings for reviews
    rw [hpath, List.nil_append, hc, get_setAt_self]
    exact ⟨("professor", .leaf sub.view.professor), List.mem_cons_self, rfl⟩

/-- Nothing repairs a spoilt course. -/
theorem spoilt_step (hfilled : sub.Filled) (hfresh : sub.Fresh uppercased root)
    (h : sub.step uppercased root = some root') (hspoilt : Spoilt root c) : Spoilt root' c := by
  by_cases hshallow : sub.Shallow uppercased c
  · obtain ⟨x, hx, hcast⟩ := hspoilt
    -- the children that were there stay
    by_cases hpath : sub.coursePath uppercased = [c]
    · refine ⟨x, ?_, hcast⟩
      rw [reviewsOf_step_self hfilled hfresh h hpath]
      exact List.mem_append_left _ hx
    · refine ⟨x, ?_, hcast⟩
      rwa [reviewsOf_step_other hfilled hshallow h hpath]
  · exact spoilt_of_not_shallow hfilled hshallow h

/-- What a run of submissions has left under `courses/c`: the reviews whose text
is `c`, in order, or something the reader cannot cast. -/
def Tally (uppercased : String → String) (c : String) (subs : List Submission) (root : FNode) : Prop :=
  ((∀ sub ∈ subs, sub.Shallow uppercased c) →
    reviewsOf root c = (subs.filter fun sub => sub.coursePath uppercased = [c]).map fun sub =>
      (sub.id.text, sub.review)) ∧
  ((∃ sub ∈ subs, ¬ sub.Shallow uppercased c) → Spoilt root c)

theorem tally_step {subs : List Submission} (hfilled : sub.Filled) (hfresh : sub.Fresh uppercased root)
    (h : sub.step uppercased root = some root') (htally : Tally uppercased c subs root) :
    Tally uppercased c (subs ++ [sub]) root' := by
  constructor
  · intro hall
    have hold := htally.1 fun sub' hsub' => hall sub' (List.mem_append_left _ hsub')
    rw [List.filter_append, List.map_append, ← hold]
    by_cases hpath : sub.coursePath uppercased = [c]
    · rw [reviewsOf_step_self hfilled hfresh h hpath, List.filter_singleton, decide_eq_true hpath]
      rfl
    · rw [reviewsOf_step_other hfilled (hall sub (by simp)) h hpath, List.filter_singleton,
        decide_eq_false hpath]
      exact (List.append_nil _).symm
  · rintro ⟨sub', hsub', hdeep⟩
    rcases List.mem_append.mp hsub' with hsub' | hsub'
    · exact spoilt_step hfilled hfresh h (htally.2 ⟨sub', hsub', hdeep⟩)
    · rw [List.mem_singleton.mp hsub'] at hdeep
      exact spoilt_of_not_shallow hfilled hdeep h

theorem tally_of_run {subs : List Submission} (hfilled : ∀ sub ∈ subs, sub.Filled)
    (hfresh : EachStep (step uppercased) (Fresh uppercased) .empty subs)
    (hrun : run (step uppercased) .empty subs = some root) (c : String) : Tally uppercased c subs root := by
  refine run_history (Tally uppercased c) (Fresh uppercased) ?_ ?_ hfresh hrun
  · intro pre sub root₁ root₂ htally hfresh hmem hstep
    exact tally_step (hfilled sub hmem) hfresh hstep htally
  · exact ⟨fun _ => rfl, fun ⟨_, hsub, _⟩ => absurd hsub List.not_mem_nil⟩

end Submission

/-! ## The reader -/

/-- The reader casts each child of `courses/c`. -/
theorem loadReviews_eq {c : String} (hc : IsComponent c) (root : FNode) :
    loadReviews root c = (reviewsOf root c).mapM fun x => asStringDict x.2 := by
  rw [loadReviews, reference_of_isComponent Submission.isComponent_courses, Option.bind_eq_bind,
    Option.bind_some, reference_of_isComponent hc, Option.bind_some, handleSnapshot_eq]
  simp only [List.nil_append, Option.map_id']
  rfl

/-- One spoilt child, and the reader traps. -/
theorem loadReviews_of_spoilt {c : String} (hc : IsComponent c) {root : FNode} (h : Spoilt root c) :
    loadReviews root c = none := by
  obtain ⟨x, hx, hcast⟩ := h
  rw [loadReviews_eq hc]
  exact mapM_eq_none hx hcast

/-- The reviews that were submitted for `c`. -/
def reviewsFor (uppercased : String → String) (c : String) (subs : List Submission) : List StringDict :=
  (subs.filter fun sub => sub.coursePath uppercased = [c]).map fun sub => sub.view.entry

/-- The reader of `c` decodes and shows everything without a trap, and what it
has are the reviews submitted for `c`, each once. -/
def ReadsBack (uppercased : String → String) (c : String) (subs : List Submission) (root : FNode) : Prop :=
  ∃ reviews cards, loadReviews root c = some reviews ∧ reviewView reviews = some cards ∧
    reviews.Perm (reviewsFor uppercased c subs)

/-- **When reviews written are reviews read.** After any submissions into an
empty database: the reader of `c` shows exactly the reviews submitted for it, if
and only if no text led below `c` and no text without pieces drew the id `c`. -/
theorem reads_back_iff (uppercased : String → String) (subs : List Submission)
    (hfilled : ∀ sub ∈ subs, sub.Filled)
    (hfresh : EachStep (Submission.step uppercased) (Submission.Fresh uppercased) .empty subs) (root : FNode)
    (hrun : run (Submission.step uppercased) .empty subs = some root) (c : String) (hc : IsComponent c) :
    ReadsBack uppercased c subs root ↔ ∀ sub ∈ subs, sub.Shallow uppercased c := by
  obtain ⟨hgood, hbad⟩ := Submission.tally_of_run hfilled hfresh hrun c
  constructor
  · rintro ⟨reviews, cards, hload, -, -⟩
    -- otherwise some child cannot be cast, and the whole observer traps
    by_contra hdeep
    rw [not_forall₂] at hdeep
    obtain ⟨sub, hsub, hdeep⟩ := hdeep
    rw [loadReviews_of_spoilt hc (hbad ⟨sub, hsub, hdeep⟩)] at hload
    cases hload
  · intro hall
    have hload : loadReviews root c = some (reviewsFor uppercased c subs) := by
      rw [loadReviews_eq hc, hgood hall, List.mapM_map]
      exact mapM_eq_some_map fun sub _ => asStringDict_entry
    -- every entry has its three keys and a rating that `Int` reads
    have hview : ∃ cards, reviewView (reviewsFor uppercased c subs) = some cards := by
      apply exists_mapM_eq_some
      intro review hreview
      obtain ⟨sub, hsub, rfl⟩ := List.mem_map.mp hreview
      obtain ⟨card, hcard, -⟩ := reviewCard_entry (hfilled sub (List.mem_of_mem_filter hsub)).rating
      exact ⟨card, hcard⟩
    obtain ⟨cards, hcards⟩ := hview
    exact ⟨_, cards, hload, hcards, List.Perm.refl _⟩

/-- Capitals for the letters of ASCII. -/
def asciiUppercased (s : String) : String := String.ofList (s.toList.map Char.toUpper)

/-- Ids as `childByAutoId` draws them. -/
def someId : PushId := ⟨"-NTxQ0aBcDeFgHiJkLmN", by decide, by decide⟩

/-- A review with four stars, filed under a course and its section. -/
def sectionReview : Submission := ⟨⟨"clear lectures", "cmsc131/0101", "Emad", 4, false⟩, someId⟩

/-- The same review, filed under the course. -/
def courseReview : Submission := ⟨⟨"clear lectures", "cmsc131", "Emad", 4, false⟩, someId⟩

theorem sectionReview_filled : sectionReview.Filled := ⟨by decide, by decide, by decide, by decide⟩

theorem courseReview_filled : courseReview.Filled := ⟨by decide, by decide, by decide, by decide⟩

theorem isComponent_cmsc131 : IsComponent "CMSC131" := ⟨by decide, by decide⟩

/-- A review of another course. -/
def mathReview : Submission := ⟨⟨"much homework", "math140", "Ida", 3, true⟩, someId⟩

/-- A second review of the first course. -/
def secondCourseReview : Submission :=
  ⟨⟨"fair exams", "CMSC131", "Fawzi", 5, false⟩, ⟨"-NTxQ0aBcDeFgHiJkLmO", by decide, by decide⟩⟩

theorem mathReview_filled : mathReview.Filled := ⟨by decide, by decide, by decide, by decide⟩

theorem secondCourseReview_filled : secondCourseReview.Filled := ⟨by decide, by decide, by decide, by decide⟩

/-- A review of a section is filed below its course, and the course's reader
traps on it. -/
theorem deep_review_breaks_reader :
    ¬ ∀ (uppercased : String → String) (subs : List Submission), (∀ sub ∈ subs, sub.Filled) →
      EachStep (Submission.step uppercased) (Submission.Fresh uppercased) .empty subs →
      ∀ root, run (Submission.step uppercased) .empty subs = some root →
      ∀ c, IsComponent c → uppercased c = c → ReadsBack uppercased c subs root := by
  intro h
  have hfilled : ∀ sub ∈ [sectionReview], sub.Filled := by
    intro sub hsub
    rw [List.mem_singleton.mp hsub]
    exact sectionReview_filled
  have hpath : sectionReview.coursePath asciiUppercased = ["CMSC131", "0101"] := by decide
  have hfresh : Submission.Fresh asciiUppercased .empty sectionReview := by
    rw [Submission.Fresh, hpath]
    rfl
  have hvalid : isValidPathString (asciiUppercased sectionReview.view.course) = true := by decide
  obtain ⟨root, hstep⟩ := Submission.exists_step .empty sectionReview_filled hvalid
  have hroot : run (Submission.step asciiUppercased) .empty [sectionReview] = some root := by
    rw [run_cons, hstep]
    rfl
  -- the review lies at `courses/CMSC131/0101`, and `0101` is taken for a review
  have hdeep : ¬ sectionReview.Shallow asciiUppercased "CMSC131" := fun hshallow =>
    hshallow.1 "0101" [] hpath
  have htrap : loadReviews root "CMSC131" = none :=
    loadReviews_of_spoilt isComponent_cmsc131
      (Submission.spoilt_of_not_shallow sectionReview_filled hdeep hstep)
  obtain ⟨reviews, cards, hload, -, -⟩ := h asciiUppercased _ hfilled
    (eachStep_singleton _ hfresh) root hroot "CMSC131" isComponent_cmsc131 (by decide)
  rw [htrap] at hload
  cases hload

/-- Three reviews, one of them of another course. -/
def threeReviews : List Submission := [courseReview, mathReview, secondCourseReview]

theorem threeReviews_filled : ∀ sub ∈ threeReviews, sub.Filled := by
  simp only [threeReviews, List.forall_mem_cons, List.not_mem_nil, false_imp_iff, implies_true, and_true]
  exact ⟨courseReview_filled, mathReview_filled, secondCourseReview_filled⟩

/-- No two of them are put at one place. -/
theorem threeReviews_fresh :
    EachStep (Submission.step asciiUppercased) (Submission.Fresh asciiUppercased) .empty threeReviews := by
  have hcourse : courseReview.coursePath asciiUppercased = ["CMSC131"] := by decide
  have hmath : mathReview.coursePath asciiUppercased = ["MATH140"] := by decide
  have hsecond : secondCourseReview.coursePath asciiUppercased = ["CMSC131"] := by decide
  refine (eachStep_cons_iff _).mpr ⟨?_, fun root₁ h₁ => (eachStep_cons_iff _).mpr ⟨?_, fun root₂ h₂ => ?_⟩⟩
  · rw [Submission.Fresh, hcourse]
    rfl
  · rw [Submission.Fresh, hmath, Submission.step_eq courseReview_filled h₁, hcourse]
    rfl
  · refine eachStep_singleton _ ?_
    rw [Submission.Fresh, hsecond, Submission.step_eq mathReview_filled h₂, hmath,
      Submission.step_eq courseReview_filled h₁, hcourse]
    rfl

theorem reads_back_iff_three :
    ∃ root, run (Submission.step asciiUppercased) .empty threeReviews = some root ∧
      (ReadsBack asciiUppercased "CMSC131" threeReviews root ↔
        ∀ sub ∈ threeReviews, sub.Shallow asciiUppercased "CMSC131") := by
  have hvalid : ∀ sub ∈ threeReviews, isValidPathString (asciiUppercased sub.view.course) = true := by decide
  obtain ⟨root₁, h₁⟩ := Submission.exists_step .empty courseReview_filled (hvalid _ (by simp [threeReviews]))
  obtain ⟨root₂, h₂⟩ := Submission.exists_step root₁ mathReview_filled (hvalid _ (by simp [threeReviews]))
  obtain ⟨root₃, h₃⟩ := Submission.exists_step root₂ secondCourseReview_filled (hvalid _ (by simp [threeReviews]))
  have hroot : run (Submission.step asciiUppercased) .empty threeReviews = some root₃ := by
    rw [threeReviews, run_cons, h₁, Option.bind_some, run_cons, h₂, Option.bind_some, run_cons, h₃]
    rfl
  exact ⟨root₃, hroot, reads_back_iff asciiUppercased _ threeReviews_filled threeReviews_fresh root₃ hroot
    "CMSC131" isComponent_cmsc131⟩

end TerpBuilder

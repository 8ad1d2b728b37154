/-
The review tab in use: the fields, the stars, the submit button and the alert.

What is posted is the form as it stands at a tap on the button. The stars keep
the rating between one and five, and an empty text or course is not posted, so
every post is one that the reader can show. With the order of the ids this makes
a round trip of the whole of it: the cards of a course are what was typed, in
the order in which it was submitted.
-/
import TerpBuilder.Posting

set_option autoImplicit false

namespace TerpBuilder

/-- A star of `ratingView`: `1...maxRating`. -/
abbrev Star := { num : ℤ // 1 ≤ num ∧ num ≤ 5 }

inductive FormEvent where
  | course (text : String)
  | professor (text : String)
  | reviewText (text : String)
  | star (num : Star)
  | submit (call : PushCall)
  /-- "Ok" of the alert -/
  | dismiss

/-- The view, the ids and the database. -/
structure ReviewForm where
  view : ReviewView
  ids : FNextPushId
  root : FNode

namespace ReviewForm

variable (uppercased : String → String)

/-- Before anything is typed, over an empty database. -/
def initial (ids : FNextPushId) : ReviewForm := ⟨.initial, ids, .empty⟩

def step (s : ReviewForm) : FormEvent → Option ReviewForm
  | .course text => some { s with view := { s.view with course := text } }
  | .professor text => some { s with view := { s.view with professor := text } }
  | .reviewText text => some { s with view := { s.view with reviewText := text } }
  | .star num => some { s with view := { s.view with rating := num } }
  | .submit call =>
    if s.view.reviewText ≠ "" ∧ s.view.course ≠ "" then
      (s.view.upload uppercased (s.ids.get call).1 s.root).map fun uploaded =>
        ⟨uploaded.1, (s.ids.get call).2, uploaded.2⟩
    else
      some s
  | .dismiss => some { s with view := { s.view with submitted := false } }

/-! ## What is submitted -/

/-- The form after an event and what it posts, from what is on the screen
alone. -/
def typed (view : ReviewView) : FormEvent → ReviewView × List Post
  | .course text => ({ view with course := text }, [])
  | .professor text => ({ view with professor := text }, [])
  | .reviewText text => ({ view with reviewText := text }, [])
  | .star num => ({ view with rating := num }, [])
  | .submit call =>
    if view.reviewText ≠ "" ∧ view.course ≠ "" then
      ({ ReviewView.initial with submitted := true }, [⟨view, call⟩])
    else
      (view, [])
  | .dismiss => ({ view with submitted := false }, [])

/-- The form after some events, and the posts so far. -/
def after (events : List FormEvent) : ReviewView × List Post :=
  events.foldl (fun s e => ((typed s.1 e).1, s.2 ++ (typed s.1 e).2)) (.initial, [])

/-- What was submitted, as it was typed. -/
def submitted (events : List FormEvent) : List Post := (after events).2

theorem after_concat (events : List FormEvent) (e : FormEvent) :
    after (events ++ [e]) = ((typed (after events).1 e).1, (after events).2 ++ (typed (after events).1 e).2) := by
  rw [after, List.foldl_append]
  rfl

/-- The rating is that of a star. -/
def Rated (view : ReviewView) : Prop := 1 ≤ view.rating ∧ view.rating ≤ 5

theorem rated_initial : Rated .initial := ⟨by decide, by decide⟩

theorem rated_typed {view : ReviewView} (h : Rated view) (e : FormEvent) : Rated (typed view e).1 := by
  cases e with
  | star num => exact num.2
  | submit call =>
    rw [typed]
    split_ifs
    · exact rated_initial
    · exact h
  | course text => exact h
  | professor text => exact h
  | reviewText text => exact h
  | dismiss => exact h

/-- A post is filled in where the form was rated. -/
theorem filled_typed {view : ReviewView} (h : Rated view) (e : FormEvent) :
    ∀ p ∈ (typed view e).2, ∀ id, Submission.Filled ⟨p.view, id⟩ := by
  cases e with
  | submit call =>
    rw [typed]
    split_ifs with hform
    · intro p hp id
      rw [List.mem_singleton.mp hp]
      exact ⟨hform.1, hform.2, h⟩
    · exact fun p hp => absurd hp List.not_mem_nil
  | star num => exact fun p hp => absurd hp List.not_mem_nil
  | course text => exact fun p hp => absurd hp List.not_mem_nil
  | professor text => exact fun p hp => absurd hp List.not_mem_nil
  | reviewText text => exact fun p hp => absurd hp List.not_mem_nil
  | dismiss => exact fun p hp => absurd hp List.not_mem_nil

/-- **Every post is filled in.** -/
theorem submitted_filled (events : List FormEvent) :
    Rated (after events).1 ∧ ∀ p ∈ submitted events, ∀ id, Submission.Filled ⟨p.view, id⟩ := by
  induction events using List.reverseRecOn with
  | nil => exact ⟨rated_initial, fun p hp => absurd hp List.not_mem_nil⟩
  | append_singleton events e ih =>
    rw [submitted, after_concat]
    refine ⟨rated_typed ih.1 e, fun p hp => ?_⟩
    rcases List.mem_append.mp hp with hp | hp
    · exact ih.2 p hp
    · exact filled_typed ih.1 e p hp

/-! ## The form and the posts -/

variable {uppercased}

/-- `upload` empties the form. -/
theorem upload_view {view view' : ReviewView} {id : PushId} {root root' : FNode}
    (hform : view.reviewText ≠ "" ∧ view.course ≠ "")
    (h : view.upload uppercased id root = some (view', root')) :
    view' = { ReviewView.initial with submitted := true } := by
  rw [ReviewView.upload, if_pos hform] at h
  obtain ⟨courses, -, h⟩ := Option.bind_eq_some_iff.mp h
  obtain ⟨course, -, h⟩ := Option.bind_eq_some_iff.mp h
  obtain ⟨ref, -, h⟩ := Option.bind_eq_some_iff.mp h
  exact (Prod.mk.inj (Option.some.inj h)).1.symm

/-- **One event** types, and posts what is submitted. -/
theorem step_eq_some {s s' : ReviewForm} {e : FormEvent} (h : step uppercased s e = some s') :
    s'.view = (typed s.view e).1 ∧
      run (Post.step uppercased) (s.ids, s.root) (typed s.view e).2 = some (s'.ids, s'.root) := by
  cases e with
  | submit call =>
    rw [step] at h
    rw [typed]
    split_ifs at h ⊢ with hform
    · obtain ⟨⟨view, root⟩, hupload, rfl⟩ := Option.map_eq_some_iff.mp h
      refine ⟨upload_view hform hupload, ?_⟩
      have hpost : Post.step uppercased (s.ids, s.root) ⟨s.view, call⟩ = some ((s.ids.get call).2, root) := by
        rw [Post.step, if_pos hform, hupload]
        rfl
      rw [run_cons, hpost]
      rfl
    · obtain rfl := Option.some.inj h
      exact ⟨rfl, rfl⟩
  | course text => obtain rfl := Option.some.inj h; exact ⟨rfl, rfl⟩
  | professor text => obtain rfl := Option.some.inj h; exact ⟨rfl, rfl⟩
  | reviewText text => obtain rfl := Option.some.inj h; exact ⟨rfl, rfl⟩
  | star num => obtain rfl := Option.some.inj h; exact ⟨rfl, rfl⟩
  | dismiss => obtain rfl := Option.some.inj h; exact ⟨rfl, rfl⟩

/-- **A run of the form is the run of its posts.** -/
theorem run_eq_some {ids : FNextPushId} {events : List FormEvent} {s : ReviewForm}
    (h : run (step uppercased) (initial ids) events = some s) :
    s.view = (after events).1 ∧
      run (Post.step uppercased) (ids, .empty) (submitted events) = some (s.ids, s.root) := by
  induction events using List.reverseRecOn generalizing s with
  | nil =>
    obtain rfl := Option.some.inj h
    exact ⟨rfl, rfl⟩
  | append_singleton events e ih =>
    obtain ⟨s₁, hrun, hstep⟩ := run_concat_eq_some _ h
    obtain ⟨hview, hposts⟩ := ih hrun
    obtain ⟨hview', hpost⟩ := step_eq_some hstep
    rw [submitted, after_concat, ← hview]
    refine ⟨hview', ?_⟩
    rw [run_append]
    exact (congrArg (Option.bind · _) hposts).trans hpost

/-- An event whose post goes through does not trap. -/
theorem exists_step {s : ReviewForm} {e : FormEvent} {t : FNextPushId × FNode}
    (h : run (Post.step uppercased) (s.ids, s.root) (typed s.view e).2 = some t) :
    ∃ s', step uppercased s e = some s' := by
  cases e with
  | submit call =>
    rw [typed] at h
    rw [step]
    split_ifs at h ⊢ with hform
    · rw [run_cons, Post.step, if_pos hform] at h
      obtain ⟨t', hpost, -⟩ := Option.bind_eq_some_iff.mp h
      obtain ⟨⟨view, root⟩, hupload, -⟩ := Option.map_eq_some_iff.mp hpost
      exact ⟨_, Option.map_eq_some_iff.mpr ⟨_, hupload, rfl⟩⟩
    · exact ⟨s, rfl⟩
  | course text => exact ⟨_, rfl⟩
  | professor text => exact ⟨_, rfl⟩
  | reviewText text => exact ⟨_, rfl⟩
  | star num => exact ⟨_, rfl⟩
  | dismiss => exact ⟨_, rfl⟩

/-- **A use of the form does not trap** when every course that is submitted is
accepted for a path. -/
theorem exists_run (ids : FNextPushId) (events : List FormEvent)
    (hvalid : ∀ p ∈ submitted events, p.Accepted uppercased) :
    ∃ s, run (step uppercased) (initial ids) events = some s := by
  induction events using List.reverseRecOn with
  | nil => exact ⟨_, rfl⟩
  | append_singleton events e ih =>
    rw [submitted, after_concat] at hvalid
    obtain ⟨s, hs⟩ := ih fun p hp => hvalid p (List.mem_append_left _ hp)
    have hview := (run_eq_some hs).1
    have hfilled := (submitted_filled (events ++ [e])).2
    rw [submitted, after_concat] at hfilled
    obtain ⟨t, ht⟩ := Post.exists_run
      (fun p hp => hfilled p (List.mem_append_right _ hp)) fun p hp => hvalid p (List.mem_append_right _ hp)
    rw [← hview] at ht
    obtain ⟨s', hs'⟩ := exists_step ht
    exact ⟨s', by rw [run_concat, hs, Option.bind_some, hs']⟩

/-! ## What is shown -/

/-- Two reviews of one course, typed and submitted in the same millisecond. -/
def twoReviews : List FormEvent :=
  [.course "cmsc131", .professor "Emad", .reviewText "clear lectures", .star ⟨5, by decide⟩,
    .submit ⟨1700000000000, fun i => i⟩, .dismiss,
    .reviewText "hard exams", .course "CMSC131", .submit ⟨1700000000000, fun _ => 0⟩]

end ReviewForm

end TerpBuilder

/-
The review list against the database.

Every time the list appears, `loadReviews` registers one more observer of the
course's reviews, and none is ever removed. An observer appends all the children
of each snapshot it is sent to the one array that is shown. So the array holds
every review as often as it was sent, and it mirrors the database only as long as
nothing was sent twice.
-/
import TerpBuilder.Observe
import TerpBuilder.ReviewView

set_option autoImplicit false

namespace TerpBuilder

namespace ReviewList

open Observed

/-- The list on the screen: the course's node in the database, the snapshots on
their way to its observers, and `reviews`. -/
abbrev State := Observed FNode (List StringDict)

/-- Before the list first appears. -/
def initial (node : FNode) : State := { current := node, pending := [], state := [] }

/-- What happens to it: an appearance registers the observer `handleSnapshot`, a
write changes the node, and a snapshot is delivered. -/
abbrev step : State → Observation FNode → Option State := Observed.step handleSnapshot

/-- The children of a snapshot, as the dictionaries that are shown. -/
def childrenOf (snapshot : FNode) : Option (List StringDict) := snapshot.kids.mapM fun child => asStringDict child.2

/-- All children are reviews that can be read. -/
def WellFormed (node : FNode) : Prop := ∀ child ∈ node.kids, ∃ childData, asStringDict child.2 = some childData

/-- The displayed array is what the database holds now, each child exactly
once. -/
def Mirrors (s : State) : Prop := ∃ children, childrenOf s.current = some children ∧ s.state.Perm children

/-! ## One snapshot -/

theorem handleSnapshot_eq_childrenOf (reviews : List StringDict) (snapshot : FNode) :
    handleSnapshot reviews snapshot = (childrenOf snapshot).map (reviews ++ ·) :=
  handleSnapshot_eq reviews snapshot

theorem exists_childrenOf {node : FNode} (h : WellFormed node) : ∃ children, childrenOf node = some children :=
  exists_mapM_eq_some h

/-- The delivery of a well-formed snapshot does not trap. -/
theorem deliver_of_wellFormed {s : State} {observer : ℕ} {snapshot : FNode} {rest : List FNode}
    (hdue : s.pending[observer]? = some (snapshot :: rest)) (h : WellFormed snapshot) :
    ∃ s', step s (.deliver observer) = some s' := by
  obtain ⟨children, hchildren⟩ := exists_childrenOf h
  exact ⟨_, step_deliver_eq_some_iff.mpr ⟨snapshot, rest, s.state ++ children, hdue,
    by rw [handleSnapshot_eq_childrenOf, hchildren, Option.map_some], rfl⟩⟩

/-- Nothing is shown of a well-formed snapshot only if it has no children. -/
theorem extracted_eq_nil_iff {node : FNode} (h : WellFormed node) :
    extracted childrenOf node = [] ↔ node.kids = [] := by
  obtain ⟨children, hchildren⟩ := exists_childrenOf h
  have hnil : childrenOf node = some [] ↔ node.kids = [] := mapM_eq_some_nil_iff
  rw [extracted, hchildren, Option.getD_some, ← hnil, hchildren, Option.some.injEq]

/-- The first appearance and the delivery of its snapshot are `loadReviews`. -/
theorem loadReviews_eq_run {root : FNode} {courseId : String} {courses ref : List String}
    (hcourses : reference [] "courses" = some courses) (href : reference courses courseId = some ref) :
    loadReviews root courseId
      = (run step (initial (root.get ref)) [.register, .deliver 0]).map (·.state) := by
  rw [loadReviews, hcourses, Option.bind_eq_bind, Option.bind_some, href]
  -- the one snapshot waits at the one observer
  show handleSnapshot [] (root.get ref)
    = (((handleSnapshot [] (root.get ref)).map fun reviews =>
        ({ current := root.get ref, pending := [[]], state := reviews } : State)).bind some).map (·.state)
  cases handleSnapshot [] (root.get ref) <;> rfl

/-! ## Every run -/

/-- **When the review list mirrors the database.** Once everything that was sent
has been handled, the displayed reviews are the children of the current state,
each exactly once, if and only if the list has appeared once and every snapshot
before the last was empty, or every snapshot was. -/
theorem reviews_mirror_iff (node : FNode) (events : List (Observation FNode)) (s : State)
    (hnode : WellFormed node) (hevents : ∀ changed, .change changed ∈ events → WellFormed changed)
    (hrun : run step (initial node) events = some s) (hsettled : s.Settled) :
    Mirrors s ↔
      (∃ earlier, sent node events = [earlier ++ [s.current]] ∧ ∀ snapshot ∈ earlier, snapshot.kids = []) ∨
        (s.current.kids = [] ∧ ∀ queue ∈ sent node events, ∀ snapshot ∈ queue, snapshot.kids = []) := by
  obtain ⟨hcurrent, hshown⟩ := shown_perm_sent handleSnapshot_eq_childrenOf hrun hsettled
  obtain ⟨hnow, hwf⟩ := mem_of_mem_sent node events hnode hevents
  rw [← hcurrent] at hnow
  -- what is shown of the current state is the children it has
  have hmirrors : Mirrors s ↔ s.state.Perm (extracted childrenOf s.current) := by
    obtain ⟨children, hchildren⟩ := exists_childrenOf hnow
    simp only [Mirrors, extracted, hchildren, Option.some.injEq, exists_eq_left', Option.getD_some]
  have hlast : ∀ queue ∈ sent node events, ∃ earlier, queue = earlier ++ [s.current] := by
    rw [hcurrent]
    exact fun queue hqueue => exists_of_mem_sent node events hqueue
  rw [hmirrors, hshown.congr_left, sent_perm_last_iff hlast, extracted_eq_nil_iff hnow]
  apply or_congr
  · refine exists_congr fun earlier => and_congr_right fun hsent => forall₂_congr fun snapshot hsnapshot => ?_
    exact extracted_eq_nil_iff (hwf (earlier ++ [s.current]) (by simp [hsent]) snapshot (by simp [hsnapshot]))
  · refine and_congr_right fun _ => forall₂_congr fun queue hqueue => forall₂_congr fun snapshot hsnapshot => ?_
    exact extracted_eq_nil_iff (hwf queue hqueue snapshot hsnapshot)

/-! ## A review that is written while the list is shown -/

def firstReview : ReviewView := ⟨"Clear lectures", "CMSC131", "Fawzi", 5, false⟩

def secondReview : ReviewView := ⟨"Many projects", "CMSC131", "Kruskal", 4, false⟩

def oneReview : FNode := .node [("-NSxA", nodeFrom firstReview.entry)]

def twoReviews : FNode := .node [("-NSxA", nodeFrom firstReview.entry), ("-NSxB", nodeFrom secondReview.entry)]

theorem childrenOf_oneReview : childrenOf oneReview = some [firstReview.entry] := by
  rw [childrenOf, oneReview, KeyTree.kids, List.mapM_cons, asStringDict_entry]
  rfl

theorem childrenOf_twoReviews : childrenOf twoReviews = some [firstReview.entry, secondReview.entry] := by
  rw [childrenOf, twoReviews, KeyTree.kids, List.mapM_cons, List.mapM_cons, asStringDict_entry,
    asStringDict_entry]
  rfl

theorem wellFormed_oneReview : WellFormed oneReview := by
  intro child hchild
  rw [List.mem_singleton.mp hchild]
  exact ⟨_, asStringDict_entry⟩

theorem wellFormed_twoReviews : WellFormed twoReviews := by
  intro child hchild
  rcases List.mem_pair.mp hchild with rfl | rfl <;> exact ⟨_, asStringDict_entry⟩

theorem handleSnapshot_oneReview : handleSnapshot [] oneReview = some [firstReview.entry] := by
  rw [handleSnapshot_eq_childrenOf, childrenOf_oneReview]
  rfl

/-- The list appears, and a second review is written after the first has been
delivered. -/
def secondWritten : List (Observation FNode) := [.register, .deliver 0, .change twoReviews, .deliver 0]

theorem run_secondWritten :
    run step (initial oneReview) secondWritten
      = some { current := twoReviews, pending := [[]]
               state := [firstReview.entry, firstReview.entry, secondReview.entry] } := by
  have htwo : handleSnapshot [firstReview.entry] twoReviews
      = some [firstReview.entry, firstReview.entry, secondReview.entry] := by
    rw [handleSnapshot_eq_childrenOf, childrenOf_twoReviews]
    rfl
  simp [secondWritten, step, Observed.step, initial, handleSnapshot_oneReview, htwo]

/-- The list shows the first review twice. -/
theorem review_shown_twice :
    ¬ ∀ (node : FNode) (events : List (Observation FNode)) (s : State), WellFormed node →
      (∀ changed, .change changed ∈ events → WellFormed changed) →
      run step (initial node) events = some s → s.Settled → Mirrors s := by
  intro h
  have hevents : ∀ changed, .change changed ∈ secondWritten → WellFormed changed := by
    intro changed hchanged
    obtain rfl : changed = twoReviews := by simpa [secondWritten] using hchanged
    exact wellFormed_twoReviews
  obtain ⟨children, hchildren, hperm⟩ := h oneReview _ _ wellFormed_oneReview hevents run_secondWritten
    (List.forall_mem_singleton.mpr rfl)
  rw [childrenOf_twoReviews] at hchildren
  obtain rfl := Option.some.inj hchildren
  exact absurd hperm.length_eq (by decide)

/-- The list appears while there are no reviews, and the first one is written. -/
def firstWritten : List (Observation FNode) := [.register, .change oneReview, .deliver 0, .deliver 0]

theorem reviews_mirror_iff_first :
    Mirrors { current := oneReview, pending := [[]], state := [firstReview.entry] } ↔
      (∃ earlier, sent .empty firstWritten = [earlier ++ [oneReview]] ∧
          ∀ snapshot ∈ earlier, snapshot.kids = []) ∨
        (oneReview.kids = [] ∧
          ∀ queue ∈ sent .empty firstWritten, ∀ snapshot ∈ queue, snapshot.kids = []) := by
  refine reviews_mirror_iff .empty firstWritten _ (fun _ hchild => absurd hchild List.not_mem_nil) ?_ ?_
    (List.forall_mem_singleton.mpr rfl)
  · intro changed hchanged
    obtain rfl : changed = oneReview := by simpa [firstWritten] using hchanged
    exact wellFormed_oneReview
  · have hempty : handleSnapshot [] .empty = some [] := rfl
    simp [firstWritten, step, Observed.step, initial, hempty, handleSnapshot_oneReview]

end ReviewList

end TerpBuilder

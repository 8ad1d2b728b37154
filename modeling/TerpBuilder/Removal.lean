/-
Removing a section whose data was fetched again.

Two records are equal when their section ids are, but the lists a removal looks
through are those of the days string it is handed. While the cards issue an add
only for a section that is not in `currClasses`, a section stands at most once on
a list, and one deletion per list is enough; what is left behind stands on a list
that the refetched days string does not name. The run theorem says that nothing
else can go wrong.
-/
import TerpBuilder.Filing
import TerpBuilder.Run
import TerpBuilder.SectionView
import Mathlib.Data.List.Nodup

set_option autoImplicit false

namespace TerpBuilder

variable {date : DateFrom}

/-! ## Erasing what occurs once -/

/-- Without an entry of that id nothing is filtered out. -/
theorem filter_bne_of_not_mem {l : List CourseData} {c : CourseData}
    (h : ∀ e ∈ l, ¬ (e == c) = true) : l.filter (fun e => !(e == c)) = l := by
  rw [List.filter_eq_self]
  intro e he
  simpa using h e he

/-- Where no two entries share an id, erasing one entry erases all of that id. -/
theorem erase_eq_filter_bne {l : List CourseData} (hl : (l.map (·.sectionID)).Nodup) (c : CourseData) :
    l.erase c = l.filter fun e => !(e == c) := by
  induction l with
  | nil => rfl
  | cons a l ih =>
      rw [List.map_cons, List.nodup_cons] at hl
      rw [List.erase_cons]
      by_cases ha : (a == c) = true
      · -- the others have other ids
        have hrest : ∀ e ∈ l, ¬ (e == c) = true := by
          intro e he hec
          apply hl.1
          rw [CourseData.beq_iff.mp ha, ← CourseData.beq_iff.mp hec]
          exact List.mem_map_of_mem he
        rw [if_pos ha, List.filter_cons_of_neg (by simp [ha]), filter_bne_of_not_mem hrest]
      · rw [if_neg ha, List.filter_cons_of_pos (by simp [ha]), ih hl.2]

namespace ScheduleModel

variable {s s' : ScheduleModel} {c : CourseData}

/-! ## One removal -/

/-- The removal of the course leaves nothing of its section and all of the rest,
in its order. -/
def RemovesWhole (s : ScheduleModel) (c : CourseData) : Prop :=
  ∃ s', s.removeFromSchedule c = some s' ∧ c.sectionID ∉ s'.currClasses ∧
    ∀ d, s'.currSchedule d = (s.currSchedule d).filter fun e => !(e == c)

/-- Every list that holds the section is one that the days string of the course
names. -/
def Covers (s : ScheduleModel) (c : CourseData) : Prop :=
  ∀ d, ∀ e ∈ s.currSchedule d, (e == c) = true → d ∈ c.filedDays

/-- No section stands twice in `currClasses` or on a list, and what stands on a
list is in `currClasses`. -/
structure Tidy (s : ScheduleModel) : Prop where
  classes : s.currClasses.Nodup
  lists : ∀ d, ((s.currSchedule d).map (·.sectionID)).Nodup
  known : ∀ d, ∀ e ∈ s.currSchedule d, e.sectionID ∈ s.currClasses

theorem empty_tidy : empty.Tidy where
  classes := List.nodup_nil
  lists := fun _ => List.nodup_nil
  known := fun _ _ he => absurd he List.not_mem_nil

/-- `currClasses` after a removal. -/
theorem removeFromSchedule_currClasses (h : s.removeFromSchedule c = some s') :
    s'.currClasses = s.currClasses.erase c.sectionID := by
  obtain ⟨m, -, rfl⟩ := removeFromSchedule_cases h
  rw [unfile_currClasses]

/-- **One removal from a tidy schedule** is complete exactly when the days string
names every list that holds the section. -/
theorem removesWhole_iff_covers (hs : s.Tidy) (hc : c.meeting ≠ []) : s.RemovesWhole c ↔ s.Covers c := by
  obtain ⟨m, hm⟩ := CourseData.exists_firstMeeting hc
  obtain ⟨s₁, hs₁, hlists⟩ := removeFromSchedule_currSchedule (s := s) hm
  constructor
  · rintro ⟨s', hs', -, hwhole⟩ d e he hec
    obtain rfl : s₁ = s' := Option.some.inj (hs₁.symm.trans hs')
    by_contra hd
    -- the list is not touched, so the entry is still there
    have hkept : e ∈ (s.currSchedule d).filter fun e => !(e == c) := by
      rw [← hwhole d, hlists d, if_neg hd]
      exact he
    simp [hec] at hkept
  · intro hcovers
    refine ⟨s₁, hs₁, ?_, fun d => ?_⟩
    · rw [removeFromSchedule_currClasses hs₁]
      exact hs.classes.not_mem_erase
    · rw [hlists d]
      by_cases hd : d ∈ c.filedDays
      · rw [if_pos hd, erase_eq_filter_bne (hs.lists d)]
      · rw [if_neg hd, filter_bne_of_not_mem fun e he hec => hd (hcovers d e he hec)]

/-! ## One call -/

/-- The calls that the cards issue: an add only of a section that is not in
`currClasses`. A removal may carry any meetings. -/
def Issued (s : ScheduleModel) : Call → Prop
  | .add course => course.sectionID ∉ s.currClasses
  | .remove _ => True

/-- The call, if it is a removal that finds a meeting, leaves nothing behind. -/
def LeavesNothing (s : ScheduleModel) : Call → Prop
  | .add _ => True
  | .remove course => course.meeting ≠ [] → s.RemovesWhole course

/-- The call, if it is a removal that finds a meeting, names every list that holds
its section. -/
def NamesLists (s : ScheduleModel) : Call → Prop
  | .add _ => True
  | .remove course => course.meeting ≠ [] → s.Covers course

theorem Tidy.add (hs : s.Tidy) (hnew : c.sectionID ∉ s.currClasses)
    (hstep : s.addToSchedule date c = some s') : s'.Tidy := by
  obtain ⟨m, hm, ⟨-, rfl⟩ | ⟨-, rfl⟩⟩ := addToSchedule_cases hstep
  · exact ⟨hs.classes, hs.lists, hs.known⟩
  · refine ⟨?_, fun d => ?_, fun d e he => ?_⟩
    · exact List.nodup_append.mpr ⟨hs.classes, List.nodup_singleton _, fun x hx y hy => by
        rintro rfl
        exact hnew (List.mem_singleton.mp hy ▸ hx)⟩
    · -- what stands on the list is in `currClasses`, so it has another id
      have hfree : c.sectionID ∉ (s.currSchedule d).map (·.sectionID) := by
        intro hmem
        obtain ⟨e, he, hid⟩ := List.mem_map.mp hmem
        exact hnew (hid ▸ hs.known d e he)
      show ((s.fileUnder m.days c).currSchedule d |>.map (·.sectionID)).Nodup
      rw [currSchedule_of_accepted hm]
      split_ifs
      · rw [List.map_append, List.map_singleton, List.nodup_append]
        refine ⟨hs.lists d, List.nodup_singleton _, fun x hx y hy => ?_⟩
        rintro rfl
        exact hfree (List.mem_singleton.mp hy ▸ hx)
      · exact hs.lists d
    · have he : e ∈ (s.fileUnder m.days c).currSchedule d := he
      show e.sectionID ∈ s.currClasses ++ [c.sectionID]
      rw [currSchedule_of_accepted hm] at he
      split_ifs at he
      · rw [List.mem_append, List.mem_singleton] at he
        rcases he with he | rfl
        · exact List.mem_append_left _ (hs.known d e he)
        · exact List.mem_append_right _ (List.mem_singleton_self _)
      · exact List.mem_append_left _ (hs.known d e he)

theorem Tidy.remove (hs : s.Tidy) (hwhole : s.RemovesWhole c) (hstep : s.removeFromSchedule c = some s') :
    s'.Tidy := by
  obtain ⟨s₁, hs₁, -, hlists⟩ := hwhole
  obtain rfl : s₁ = s' := Option.some.inj (hs₁.symm.trans hstep)
  have hclasses := removeFromSchedule_currClasses hs₁
  refine ⟨?_, fun d => ?_, fun d e he => ?_⟩
  · rw [hclasses]
    exact hs.classes.erase _
  · rw [hlists d]
    exact (hs.lists d).sublist (List.filter_sublist.map _)
  · rw [hlists d, List.mem_filter] at he
    have hid : e.sectionID ≠ c.sectionID := by
      intro hid
      have hec : (e == c) = true := CourseData.beq_iff.mpr hid
      simp [hec] at he
    rw [hclasses]
    exact (List.mem_erase_of_ne hid).mpr (hs.known d e he.1)

/-! ## Runs -/

/-- **When every removal is complete.** Over any run from the empty schedule whose
adds are those the cards issue, whatever meetings the calls carry: each removal
leaves nothing of its section and all the rest, if and only if each removal
carries a days string that names every list its section stands on. -/
theorem removals_complete_iff (date : DateFrom) (calls : List Call)
    (hissued : EachStep (Call.step date) Issued empty calls) :
    EachStep (Call.step date) LeavesNothing empty calls ↔ EachStep (Call.step date) NamesLists empty calls := by
  refine eachStep_iff_of_invariant Tidy Issued LeavesNothing NamesLists ?_ ?_ empty_tidy hissued
  · intro s call hs _
    rcases call with course | course
    · exact Iff.rfl
    · exact forall_congr' fun hc => removesWhole_iff_covers hs hc
  · intro s call s' hs hcall hnothing hstep
    rcases call with course | course
    · exact hs.add hcall hstep
    · obtain ⟨m, hm, -⟩ := removeFromSchedule_cases hstep
      exact hs.remove (hnothing hm.meeting_ne_nil) hstep

/-- A section as it was added, and as it was fetched later. -/
def beforeRefetch : CourseData := .section "GEOL100-0101" [.on "MW" "9:00am" "10:00am"]

def afterRefetch : CourseData := .section "GEOL100-0101" [.on "TuTh" "9:00am" "10:00am"]

/-- The removal looks on Tuesday and Thursday; Monday and Wednesday stay. -/
theorem refetched_removal_incomplete :
    ¬ ∀ (date : DateFrom) (calls : List Call), EachStep (Call.step date) Issued empty calls →
      ∀ s, run (Call.step date) empty calls = some s → ∀ c, c.meeting ≠ [] → s.RemovesWhole c := by
  intro h
  have hissued : EachStep (Call.step .strict) Issued empty [.add beforeRefetch] :=
    eachStep_singleton _ List.not_mem_nil
  have hreach : (run (Call.step .strict) empty [.add beforeRefetch]).map
      (fun s => (s.removeFromSchedule afterRefetch).map fun s' => s'.currSchedule .Mon)
      = some (some [beforeRefetch]) := by decide
  obtain ⟨s, hs, hleft⟩ := Option.map_eq_some_iff.mp hreach
  obtain ⟨s', hs', -, hwhole⟩ := h .strict _ hissued s hs afterRefetch (List.cons_ne_nil _ _)
  rw [hs', Option.map_some, Option.some.injEq, hwhole .Mon] at hleft
  -- what is left of the section was to be filtered out
  have hmem : beforeRefetch ∈ (s.currSchedule .Mon).filter fun e => !(e == afterRefetch) := by
    rw [hleft]
    exact List.mem_singleton_self _
  have hother := (List.mem_filter.mp hmem).2
  revert hother
  decide

/-- The same section with a Friday lecture more. -/
def widerRefetch : CourseData := .section "GEOL100-0101" [.on "MWF" "9:00am" "10:00am"]

/-- Its days name both lists that the section was filed on. -/
theorem removals_complete_iff_wider :
    EachStep (Call.step .strict) LeavesNothing empty [.add beforeRefetch, .remove widerRefetch] ↔
      EachStep (Call.step .strict) NamesLists empty [.add beforeRefetch, .remove widerRefetch] :=
  removals_complete_iff .strict _ <| (eachStep_cons_iff _).mpr
    ⟨List.not_mem_nil, fun _ _ => eachStep_singleton _ trivial⟩

/-! ## The taps on a card -/

/-- A tap with open seats is a call that the cards issue. -/
theorem tap_issued {info : InfoResponse} {sec : SectionResponse} (hseats : sec.open_seats ≠ "0") :
    ∃ call : Call, s.Issued call ∧ call.course = SectionView.courseData info sec ∧
      SectionView.tap date info sec s = call.step date s := by
  rw [SectionView.tap, if_pos hseats]
  by_cases hin : s.currClasses.contains sec.id = true
  · rw [if_pos hin]
    exact ⟨.remove (SectionView.courseData info sec), trivial, rfl, rfl⟩
  · rw [if_neg hin]
    refine ⟨.add (SectionView.courseData info sec), ?_, rfl, rfl⟩
    intro hmem
    exact hin (List.contains_iff_mem.mpr hmem)

end ScheduleModel

end TerpBuilder

/-
The seven day lists and `currClasses` as projections of one list.

`ScheduleModel` keeps eight arrays and changes them one by one. What they are
meant to hold is a single list of sections: the accepted ones in the order of
their adds, less the removed ones. `ledgerStep` runs that list beside the model,
and the theorem at the end reads the eight arrays off it.
-/
import TerpBuilder.Run
import TerpBuilder.Verdict
import Mathlib.Data.List.Count

set_option autoImplicit false

namespace TerpBuilder

/-! ## Erasing by `==`

The equality of `CourseData` looks at the section id only, so it is not lawful
and the lemmas of the library about `erase` do not apply. -/

section Erase

variable {α : Type*} [BEq α] (a : α)

theorem filter_erase_of_pos (p : α → Bool) (l : List α) (h : ∀ e ∈ l, (e == a) = true → p e = true) :
    (l.erase a).filter p = (l.filter p).erase a := by
  induction l with
  | nil => rfl
  | cons e l ih =>
      have ih' := ih fun e' he' => h e' (List.mem_cons_of_mem _ he')
      rw [List.erase_cons]
      by_cases he : (e == a) = true
      · rw [if_pos he, List.filter_cons_of_pos (h e List.mem_cons_self he), List.erase_cons, if_pos he]
      · rw [if_neg he]
        by_cases hp : p e = true
        · rw [List.filter_cons_of_pos hp, List.filter_cons_of_pos hp, List.erase_cons, if_neg he, ih']
        · rw [List.filter_cons_of_neg hp, List.filter_cons_of_neg hp, ih']

theorem filter_erase_of_neg (p : α → Bool) (l : List α) (h : ∀ e ∈ l, (e == a) = true → ¬ p e = true) :
    (l.erase a).filter p = l.filter p := by
  induction l with
  | nil => rfl
  | cons e l ih =>
      have ih' := ih fun e' he' => h e' (List.mem_cons_of_mem _ he')
      rw [List.erase_cons]
      by_cases he : (e == a) = true
      · rw [if_pos he, List.filter_cons_of_neg (h e List.mem_cons_self he)]
      · rw [if_neg he]
        by_cases hp : p e = true
        · rw [List.filter_cons_of_pos hp, List.filter_cons_of_pos hp, ih']
        · rw [List.filter_cons_of_neg hp, List.filter_cons_of_neg hp, ih']

theorem map_erase_of_beq {β : Type*} [BEq β] (f : α → β) (l : List α)
    (h : ∀ e, (e == a) = (f e == f a)) : (l.erase a).map f = (l.map f).erase (f a) := by
  induction l with
  | nil => rfl
  | cons e l ih =>
      rw [List.erase_cons, List.map_cons, List.erase_cons, ← h e]
      by_cases he : (e == a) = true
      · rw [if_pos he, if_pos he]
      · rw [if_neg he, if_neg he, List.map_cons, ih]

end Erase

namespace ScheduleModel

variable {date : DateFrom}

/-! ## The ledger -/

/-- The sections of a list that are filed under a day. -/
def filedOn (L : List CourseData) (d : Day) : List CourseData := L.filter fun e => d ∈ e.filedDays

theorem mem_filedOn {L : List CourseData} {d : Day} {e : CourseData} :
    e ∈ filedOn L d ↔ e ∈ L ∧ d ∈ e.filedDays := by
  rw [filedOn, List.mem_filter, decide_eq_true_iff]

theorem filedOn_concat (L : List CourseData) (c : CourseData) (d : Day) :
    filedOn (L ++ [c]) d = if d ∈ c.filedDays then filedOn L d ++ [c] else filedOn L d := by
  rw [filedOn, List.filter_append, ← filedOn, List.filter_singleton]
  by_cases h : d ∈ c.filedDays
  · rw [if_pos h, decide_eq_true h]
    rfl
  · rw [if_neg h, decide_eq_false h]
    exact List.append_nil _

/-- The list of sections after a call: an accepted course is appended, a removal
erases the first entry with that section id. -/
def ledgerStep (date : DateFrom) (p : ScheduleModel × List CourseData) (call : Call) :
    Option (ScheduleModel × List CourseData) := do
  let s ← call.step date p.1
  match call with
  | .add course => return (s, if s.addFailed then p.2 else p.2 ++ [course])
  | .remove course => return (s, p.2.erase course)

/-- What the eight arrays hold when the ledger holds `L`. -/
structure Projects (s : ScheduleModel) (L : List CourseData) : Prop where
  classes : s.currClasses = L.map (·.sectionID)
  lists : ∀ d, s.currSchedule d = filedOn L d

theorem empty_projects : empty.Projects [] := ⟨rfl, fun _ => rfl⟩

/-! ## One add -/

/-- A lecture with the very same times stops the loop with a conflict, if
nothing before it traps. -/
theorem lectureLoop_ne_false {x y : String} {arr : List CourseData} {e : CourseData} (he : e ∈ arr)
    {m : Meeting} (hm : e.FirstMeeting m) (hx : m.start_time = x) (hy : m.end_time = y) :
    lectureLoop date x y arr ≠ some false := by
  intro hloop
  rw [lectureLoop_eq_allM, map_not_eq_some_iff] at hloop
  -- a loop that runs through goes on at `e` as well, where the strings are equal
  have hgo := allM_eq_some_true_iff.mp hloop e he
  rw [show e.meeting[0]? = some m from hm, Option.bind_some, returnsAt, if_pos ⟨hx, hy⟩] at hgo
  cases hgo

/-- An accepted course that is filed somewhere has no namesake with the same
meetings on all of its days. -/
theorem not_accepted_of_twin {s : ScheduleModel} {course e : CourseData} {m : Meeting}
    (hm : course.FirstMeeting m) (hmeet : e.meeting = course.meeting) (hfiled : course.filedDays ≠ [])
    (he : ∀ d ∈ course.filedDays, e ∈ s.currSchedule d) :
    s.checkConflict date course ≠ some false := by
  intro hfalse
  rw [CourseData.FirstMeeting.filedDays_eq hm] at hfiled he
  rw [checkConflict_of_filed date hm hfiled] at hfalse
  obtain ⟨d, hd, hday⟩ := exists_of_allM_eq_some_false hfalse
  have hm' : e.FirstMeeting m := by rw [CourseData.FirstMeeting, hmeet]; exact hm
  exact lectureLoop_ne_false (he d hd) hm' rfl rfl hday

/-- The model after an accepted add, and the ledger. -/
theorem Projects.add {s : ScheduleModel} {L : List CourseData} (h : s.Projects L) {course : CourseData}
    {m : Meeting} (hm : course.FirstMeeting m) (failed : Bool) :
    Projects { s.fileUnder m.days course with
      currClasses := s.currClasses ++ [course.sectionID], addFailed := failed } (L ++ [course]) := by
  constructor
  · rw [List.map_append, ← h.classes]
    rfl
  · intro d
    rw [filedOn_concat, ← h.lists d, CourseData.FirstMeeting.filedDays_eq hm]
    exact fileUnder_currSchedule m.days course s d

/-! ## One removal -/

theorem Projects.remove {s : ScheduleModel} {L : List CourseData} (h : s.Projects L)
    {course : CourseData} {m : Meeting} (hm : course.FirstMeeting m)
    (hsame : ∀ e ∈ L, e.sectionID = course.sectionID → e.meeting = course.meeting) :
    Projects (({ s with currClasses := s.currClasses.erase course.sectionID } : ScheduleModel).unfile
      m.days course) (L.erase course) := by
  have hdays : ∀ e ∈ L, (e == course) = true → e.filedDays = course.filedDays := fun e he heq =>
    CourseData.filedDays_congr (hsame e he (CourseData.beq_iff.mp heq))
  constructor
  · rw [unfile_currClasses, h.classes]
    exact (map_erase_of_beq course (·.sectionID) L fun _ => rfl).symm
  · intro d
    rw [unfile_currSchedule, ← CourseData.FirstMeeting.filedDays_eq hm]
    by_cases hd : d ∈ course.filedDays
    · rw [if_pos hd, filedOn, filter_erase_of_pos course _ L, ← filedOn, ← h.lists d]
      exact fun e he heq => decide_eq_true (hdays e he heq ▸ hd)
    · rw [if_neg hd, filedOn, filter_erase_of_neg course _ L, ← filedOn, ← h.lists d]
      exact fun e he heq hp => hd (hdays e he heq ▸ of_decide_eq_true hp)

/-! ## Runs -/

/-- The invariant of a run: the arrays hold the ledger, its entries come from
the calls, and a section that is filed somewhere stands in it once. -/
structure LedgerInv (calls : List Call) (p : ScheduleModel × List CourseData) : Prop where
  projects : p.1.Projects p.2
  from_calls : ∀ e ∈ p.2, ∃ call ∈ calls, call.course = e
  once : ∀ e ∈ p.2, e.filedDays ≠ [] → (p.2.map (·.sectionID)).count e.sectionID = 1

/-- Sections with one id carry one list of meetings. -/
def OneMeetingArray (calls : List Call) : Prop :=
  ∀ c ∈ calls, ∀ c' ∈ calls, c.course.sectionID = c'.course.sectionID → c.course.meeting = c'.course.meeting

theorem LedgerInv.same_meeting {calls : List Call} {p : ScheduleModel × List CourseData}
    (h : LedgerInv calls p) (hsame : OneMeetingArray calls) {call : Call} (hcall : call ∈ calls) :
    ∀ e ∈ p.2, e.sectionID = call.course.sectionID → e.meeting = call.course.meeting := by
  intro e he hid
  obtain ⟨c, hc, rfl⟩ := h.from_calls e he
  exact hsame c hc call hcall hid

/-- A course that is accepted and filed somewhere has no namesake in the ledger:
it would have been met on every day of the course. -/
theorem LedgerInv.unfiled_of_namesake {calls : List Call} {s : ScheduleModel} {L : List CourseData}
    (h : LedgerInv calls (s, L)) {course : CourseData} {m : Meeting} (hm : course.FirstMeeting m)
    (haccepted : s.checkConflict date course = some false) {e : CourseData} (he : e ∈ L)
    (hmeet : e.meeting = course.meeting) : course.filedDays = [] := by
  by_contra hfiled
  have hdays : e.filedDays = course.filedDays := CourseData.filedDays_congr hmeet
  refine not_accepted_of_twin hm hmeet hfiled (fun d hd => ?_) haccepted
  rw [h.projects.lists d, mem_filedOn]
  exact ⟨he, hdays ▸ hd⟩

/-- An accepted course whose namesakes are filed nowhere leaves every filed
section in the ledger once. -/
theorem LedgerInv.once_concat {calls : List Call} {s : ScheduleModel} {L : List CourseData}
    (h : LedgerInv calls (s, L)) {course : CourseData}
    (hdays : ∀ e ∈ L, e.sectionID = course.sectionID → e.filedDays = course.filedDays)
    (hnew : ∀ e ∈ L, e.sectionID = course.sectionID → course.filedDays = []) :
    ∀ e ∈ L ++ [course], e.filedDays ≠ [] → ((L ++ [course]).map (·.sectionID)).count e.sectionID = 1 := by
  intro e he hfiled
  rw [List.map_append, List.count_append, List.map_singleton, List.count_singleton]
  rcases List.mem_append.mp he with he | he
  · -- an old section is not the new one
    have hid : course.sectionID ≠ e.sectionID := fun hid =>
      hfiled ((hdays e he hid.symm).trans (hnew e he hid.symm))
    rw [h.once e he hfiled, if_neg (by simpa using hid)]
  · -- and the new one has no namesake
    obtain rfl := List.mem_singleton.mp he
    have hzero : (L.map (·.sectionID)).count e.sectionID = 0 := by
      rw [List.count_eq_zero, List.mem_map]
      rintro ⟨e', he', hid⟩
      exact hfiled (hnew e' he' hid)
    rw [hzero, if_pos (by simp)]

theorem ledgerInv_add {calls : List Call} (hsame : OneMeetingArray calls) {s s' : ScheduleModel}
    {L L' : List CourseData} {course : CourseData} (hcall : Call.add course ∈ calls)
    (h : LedgerInv calls (s, L)) (hstep : ledgerStep date (s, L) (.add course) = some (s', L')) :
    LedgerInv calls (s', L') := by
  obtain ⟨s₁, hs₁, hL⟩ := Option.bind_eq_some_iff.mp hstep
  obtain ⟨rfl, rfl⟩ : s₁ = s' ∧ (if s₁.addFailed then L else L ++ [course]) = L' := by
    simpa using hL
  obtain ⟨m, hm, ⟨-, rfl⟩ | ⟨haccepted, rfl⟩⟩ := addToSchedule_cases hs₁
  · rw [if_pos rfl]
    exact ⟨⟨h.projects.classes, h.projects.lists⟩, h.from_calls, h.once⟩
  · rw [if_neg Bool.false_ne_true]
    have hmeet := h.same_meeting hsame hcall
    refine ⟨h.projects.add hm false, fun e he => ?_, h.once_concat ?_ ?_⟩
    · rcases List.mem_append.mp he with he | he
      · exact h.from_calls e he
      · exact ⟨_, hcall, (List.mem_singleton.mp he).symm⟩
    · exact fun e he hid => CourseData.filedDays_congr (hmeet e he hid)
    · exact fun e he hid => h.unfiled_of_namesake hm haccepted he (hmeet e he hid)

theorem ledgerInv_remove {calls : List Call} (hsame : OneMeetingArray calls) {s s' : ScheduleModel}
    {L L' : List CourseData} {course : CourseData} (hcall : Call.remove course ∈ calls)
    (h : LedgerInv calls (s, L)) (hstep : ledgerStep date (s, L) (.remove course) = some (s', L')) :
    LedgerInv calls (s', L') := by
  obtain ⟨s₁, hs₁, hL⟩ := Option.bind_eq_some_iff.mp hstep
  obtain ⟨rfl, rfl⟩ : s₁ = s' ∧ L.erase course = L' := by simpa using hL
  obtain ⟨m, hm, rfl⟩ := removeFromSchedule_cases hs₁
  have hsub : (L.erase course).Sublist L := List.erase_sublist
  refine ⟨h.projects.remove hm (h.same_meeting hsame hcall), fun e he => h.from_calls e (hsub.subset he),
    fun e he hfiled => ?_⟩
  -- what is left stood once, and it is still there
  have hle := (hsub.map (·.sectionID)).count_le e.sectionID
  have hpos : 0 < ((L.erase course).map (·.sectionID)).count e.sectionID :=
    List.count_pos_iff.mpr (List.mem_map_of_mem he)
  have honce := h.once e (hsub.subset he) hfiled
  dsimp only at honce hle hpos ⊢
  omega

/-- Every run of the model is the first half of a run with the ledger. -/
theorem exists_ledger {calls : List Call} {s s' : ScheduleModel} (L : List CourseData)
    (hrun : run (Call.step date) s calls = some s') :
    ∃ L', run (ledgerStep date) (s, L) calls = some (s', L') := by
  induction calls generalizing s L with
  | nil =>
      obtain rfl := Option.some.inj hrun
      exact ⟨L, rfl⟩
  | cons call calls ih =>
      rw [run_cons] at hrun
      obtain ⟨s₁, hs₁, hrun⟩ := Option.bind_eq_some_iff.mp hrun
      obtain ⟨L₁, hL₁⟩ : ∃ L₁, ledgerStep date (s, L) call = some (s₁, L₁) := by
        rw [ledgerStep, hs₁]
        rcases call with c | c <;> exact ⟨_, rfl⟩
      obtain ⟨L', hL'⟩ := ih L₁ hrun
      exact ⟨L', by rw [run_cons, hL₁, Option.bind_some, hL']⟩

/-- **The eight arrays are projections of one list.** In every run without a
trap in which sections with one id carry one list of meetings: `currClasses` is
the ids of the ledger in order, each day's list is the ledger's entries filed
under that day in order, and a section that is filed somewhere stands once in the
ledger and once on each of its days. -/
theorem ledger_projection (date : DateFrom) (calls : List Call) (hsame : OneMeetingArray calls)
    (s : ScheduleModel) (hrun : run (Call.step date) empty calls = some s) :
    ∃ L, run (ledgerStep date) (empty, []) calls = some (s, L) ∧
      s.currClasses = L.map (·.sectionID) ∧
      (∀ d, s.currSchedule d = L.filter fun e => d ∈ e.filedDays) ∧
      ∀ e ∈ L, e.filedDays ≠ [] → (s.currClasses.count e.sectionID = 1 ∧
        ∀ d ∈ e.filedDays, ((s.currSchedule d).map (·.sectionID)).count e.sectionID = 1) := by
  obtain ⟨L, hL⟩ := exists_ledger [] hrun
  have hinv : LedgerInv calls (s, L) := by
    refine run_invariant (LedgerInv calls) ?_ ⟨empty_projects, by simp, by simp⟩ hL
    rintro ⟨s₁, L₁⟩ call ⟨s₂, L₂⟩ h hcall hstep
    rcases call with course | course
    · exact ledgerInv_add hsame hcall h hstep
    · exact ledgerInv_remove hsame hcall h hstep
  refine ⟨L, hL, hinv.projects.classes, hinv.projects.lists, fun e he hfiled => ?_⟩
  have honce := hinv.once e he hfiled
  dsimp only at honce
  refine ⟨hinv.projects.classes ▸ honce, fun d hd => ?_⟩
  -- the list of a day is a part of the ledger that has the section in it
  have hmem : e ∈ s.currSchedule d := by
    rw [hinv.projects.lists d, mem_filedOn]
    exact ⟨he, hd⟩
  have hsub : (s.currSchedule d).Sublist L := by
    rw [hinv.projects.lists d]
    exact List.filter_sublist
  have hle := (hsub.map (·.sectionID)).count_le e.sectionID
  have hpos : 0 < ((s.currSchedule d).map (·.sectionID)).count e.sectionID :=
    List.count_pos_iff.mpr (List.mem_map_of_mem hmem)
  omega

/-- A section added twice, the second time refused, and removed. -/
theorem ledger_projection_twice :
    ∃ s L, run (ledgerStep .strict) (empty, [])
        (let c := CourseData.section "CMSC131-0101" [.on "MW" "9:00am" "10:00am"]
         [.add c, .add c, .remove c]) = some (s, L) ∧
      s.currClasses = L.map (·.sectionID) ∧ ∀ d, s.currSchedule d = L.filter fun e => d ∈ e.filedDays := by
  have hrun : (run (Call.step .strict) empty
      (let c := CourseData.section "CMSC131-0101" [.on "MW" "9:00am" "10:00am"]
       [.add c, .add c, .remove c])).isSome = true := by decide
  obtain ⟨s, hs⟩ := Option.isSome_iff_exists.mp hrun
  obtain ⟨L, hL, hclasses, hlists, -⟩ := ledger_projection .strict _
    (by simp [OneMeetingArray, Call.course]) s hs
  exact ⟨s, L, hL, hclasses, hlists⟩

end ScheduleModel

end TerpBuilder

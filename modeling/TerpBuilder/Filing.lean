/-
Which day lists a days string stands for, and the three chains of
`ScheduleModel` read through it.

`addToSchedule`, `checkConflict` and `removeFromSchedule` each decode the days
string with an `if` chain of their own. `filedDays` is that chain once, as a list
of days, and this file proves that the three agree with it: adding appends to
those lists and to no other, removing erases from those lists and from no other,
and the conflict check is the conjunction of the verdicts on those lists.
Everything later is stated over `filedDays` and never unfolds a chain again.
-/
import TerpBuilder.ScheduleModel
import TerpBuilder.Trap

set_option autoImplicit false

namespace TerpBuilder

/-- The days a days string is filed under. -/
def filedDays (days : String) : List Day :=
  if days = "MWF" then [.Mon, .Wen, .Fri]
  else if days = "TuTh" then [.Tue, .Thu]
  else if days = "MW" then [.Mon, .Wen]
  else if days.length = 1 then
    if days.toList.head? = some 'M' then [.Mon]
    else if days.toList.head? = some 'W' then [.Wen]
    else [.Fri]
  else if days.length = 2 then
    if days = "Tu" then [.Tue] else [.Thu]
  else []

example : filedDays "TuTh" = [.Tue, .Thu] := by decide
example : filedDays "WF" = [.Thu] := by decide
example : filedDays "MTuWThF" = [] := by decide

namespace CourseData

/-- The days a course is filed under: those of its first meeting's string. -/
def filedDays (course : CourseData) : List Day :=
  (course.meeting.head?.map fun m => TerpBuilder.filedDays m.days).getD []

/-- The course's first meeting is `m`. -/
def FirstMeeting (course : CourseData) (m : Meeting) : Prop := course.meeting[0]? = some m

theorem firstMeeting_of_eq {course : CourseData} {m : Meeting} {ms : List Meeting}
    (h : course.meeting = m :: ms) : course.FirstMeeting m := by
  rw [FirstMeeting, h]
  rfl

theorem FirstMeeting.filedDays_eq {course : CourseData} {m : Meeting} (h : course.FirstMeeting m) :
    course.filedDays = TerpBuilder.filedDays m.days := by
  rw [FirstMeeting, ← List.head?_eq_getElem?] at h
  rw [filedDays, h]
  rfl

theorem FirstMeeting.meeting_ne_nil {course : CourseData} {m : Meeting} (h : course.FirstMeeting m) :
    course.meeting ≠ [] :=
  List.ne_nil_of_mem (List.mem_of_getElem? h)

/-- A course of two meetings has one after the first. -/
theorem FirstMeeting.exists_pair {course : CourseData} {m : Meeting} (h : course.FirstMeeting m)
    (hlen : course.meeting.length = 2) : ∃ n, course.meeting = [m, n] := by
  obtain ⟨m', n, hmeet⟩ := List.length_eq_two.mp hlen
  rw [FirstMeeting, hmeet] at h
  obtain rfl := Option.some.inj h
  exact ⟨n, hmeet⟩

/-- The days a course is filed under depend on its meetings only. -/
theorem filedDays_congr {a b : CourseData} (h : a.meeting = b.meeting) : a.filedDays = b.filedDays := by
  rw [filedDays, h, ← filedDays]

theorem exists_firstMeeting {course : CourseData} (h : course.meeting ≠ []) :
    ∃ m, course.FirstMeeting m := by
  obtain ⟨m, ms, hms⟩ := List.exists_cons_of_ne_nil h
  exact ⟨m, firstMeeting_of_eq hms⟩

end CourseData

/-- No day is listed twice. -/
theorem filedDays_nodup (days : String) : (filedDays days).Nodup := by
  unfold filedDays
  split_ifs <;> decide

namespace ScheduleModel

/-! ## One operation on several days -/

/-- Changing the list of each of some days, none of them twice, and no other. -/
theorem foldl_currSchedule (op : Day → ScheduleModel → ScheduleModel)
    (f : List CourseData → List CourseData)
    (hop : ∀ day s d, (op day s).currSchedule d = if d = day then f (s.currSchedule d) else s.currSchedule d)
    (days : List Day) (hnd : days.Nodup) (s : ScheduleModel) (d : Day) :
    (days.foldl (fun s day => op day s) s).currSchedule d
      = if d ∈ days then f (s.currSchedule d) else s.currSchedule d := by
  induction days generalizing s with
  | nil => rw [List.foldl_nil, if_neg List.not_mem_nil]
  | cons day days ih =>
      obtain ⟨hday, hnd⟩ := List.nodup_cons.mp hnd
      rw [List.foldl_cons, ih hnd, hop]
      by_cases hd : d = day
      · -- this is the day, and by `hnd` it does not come again
        rw [if_pos hd, if_neg (hd ▸ hday), if_pos (hd ▸ List.mem_cons_self)]
      · simp only [List.mem_cons, hd, false_or, if_false]

/-! ## Adding -/

theorem append_currSchedule (day d : Day) (course : CourseData) (s : ScheduleModel) :
    (s.append day course).currSchedule d
      = if d = day then s.currSchedule d ++ [course] else s.currSchedule d := by
  unfold append
  by_cases h : d = day
  · rw [if_pos h, h]
    exact Function.update_self ..
  · rw [if_neg h]
    exact Function.update_of_ne h ..

/-- The chain of `addToSchedule` appends under `filedDays`. -/
theorem fileUnder_eq_foldl (days : String) (course : CourseData) (s : ScheduleModel) :
    s.fileUnder days course = (filedDays days).foldl (fun s day => s.append day course) s := by
  unfold fileUnder filedDays
  split_ifs <;> rfl

theorem fileUnder_currSchedule (days : String) (course : CourseData) (s : ScheduleModel) (d : Day) :
    (s.fileUnder days course).currSchedule d
      = if d ∈ filedDays days then s.currSchedule d ++ [course] else s.currSchedule d := by
  rw [fileUnder_eq_foldl]
  exact foldl_currSchedule (fun day s => s.append day course) (· ++ [course])
    (fun day s d => append_currSchedule day d course s) _ (filedDays_nodup days) s d

@[simp] theorem fileUnder_currClasses (days : String) (course : CourseData) (s : ScheduleModel) :
    (s.fileUnder days course).currClasses = s.currClasses := by
  unfold fileUnder
  split_ifs <;> rfl

/-- `addToSchedule` would append the course to the list of `d`. -/
theorem mem_filedDays_iff_appends (days : String) (course : CourseData) (s : ScheduleModel) (d : Day) :
    d ∈ filedDays days ↔ (s.fileUnder days course).currSchedule d = s.currSchedule d ++ [course] := by
  rw [fileUnder_currSchedule]
  by_cases h : d ∈ filedDays days
  · simp only [h, if_true]
  · simp only [h, if_false, false_iff]
    intro he
    simpa using congrArg List.length he

/-! ## Removing -/

theorem removeFirst_eq_erase {α : Type*} [BEq α] (xs : List α) (x : α) :
    removeFirst xs x = xs.erase x := by
  rw [removeFirst, List.erase_eq_eraseIdx]
  cases xs.idxOf? x <;> rfl

theorem quickDelete_currSchedule (day d : Day) (course : CourseData) (s : ScheduleModel) :
    (s.quickDelete day course).currSchedule d
      = if d = day then (s.currSchedule d).erase course else s.currSchedule d := by
  unfold quickDelete
  by_cases h : d = day
  · rw [if_pos h, h, ← removeFirst_eq_erase]
    exact Function.update_self ..
  · rw [if_neg h]
    exact Function.update_of_ne h ..

/-- The chain of `removeFromSchedule` deletes under `filedDays`. -/
theorem unfile_eq_foldl (days : String) (course : CourseData) (s : ScheduleModel) :
    s.unfile days course = (filedDays days).foldl (fun s day => s.quickDelete day course) s := by
  unfold unfile filedDays
  split_ifs <;> rfl

theorem unfile_currSchedule (days : String) (course : CourseData) (s : ScheduleModel) (d : Day) :
    (s.unfile days course).currSchedule d
      = if d ∈ filedDays days then (s.currSchedule d).erase course else s.currSchedule d := by
  rw [unfile_eq_foldl]
  exact foldl_currSchedule (fun day s => s.quickDelete day course) (·.erase course)
    (fun day s d => quickDelete_currSchedule day d course s) _ (filedDays_nodup days) s d

@[simp] theorem unfile_currClasses (days : String) (course : CourseData) (s : ScheduleModel) :
    (s.unfile days course).currClasses = s.currClasses := by
  unfold unfile
  split_ifs <;> rfl

/-! ## Checking -/

/-- The chain of `checkConflict`, which occurs in it once for the lecture and
once for the discussion: the verdicts on `filedDays` joined by `&&`, or what
follows the chain when there are none. -/
theorem verdictChain_eq (check : Day → Option Bool) (other : Option Bool) (days : String) :
    (if days = "MWF" then check .Mon <&&> check .Wen <&&> check .Fri
      else if days = "TuTh" then check .Tue <&&> check .Thu
      else if days = "MW" then check .Mon <&&> check .Wen
      else if days.length = 1 then
        if days.toList.head? = some 'M' then check .Mon
        else if days.toList.head? = some 'W' then check .Wen
        else check .Fri
      else if days.length = 2 then
        if days = "Tu" then check .Tue else check .Thu
      else other)
      = if filedDays days = [] then other else (filedDays days).allM check := by
  unfold filedDays
  -- one case for each branch of the chain; `contradiction` where `filedDays` is not empty
  split_ifs <;> first
    | contradiction
    | rfl
    | simp only [allM_triple, allM_pair, allM_singleton]

variable (date : DateFrom) {s : ScheduleModel} {course : CourseData} {m : Meeting}

/-- `checkConflict`, with both chains read through `filedDays`. -/
theorem checkConflict_eq (hm : course.FirstMeeting m) :
    s.checkConflict date course
      = if filedDays m.days = [] then
          if course.meeting.length = 2 then
            course.meeting[1]?.bind fun n =>
              if filedDays n.days = [] then some false
              else (filedDays n.days).allM fun d => s.checkDiscussion date d n.start_time n.end_time
          else some false
        else (filedDays m.days).allM fun d => s.checkLecture date d m.start_time m.end_time := by
  rw [checkConflict, hm, Option.bind_eq_bind, Option.bind_some]
  refine (verdictChain_eq (fun d => s.checkLecture date d m.start_time m.end_time) _ _).trans ?_
  congr 3
  funext n
  exact verdictChain_eq (fun d => s.checkDiscussion date d n.start_time n.end_time) _ _

/-- A course whose first meeting is filed somewhere: the lecture is checked on
those days, and nothing else is looked at. -/
theorem checkConflict_of_filed (hm : course.FirstMeeting m) (hfiled : filedDays m.days ≠ []) :
    s.checkConflict date course
      = (filedDays m.days).allM fun d => s.checkLecture date d m.start_time m.end_time := by
  rw [checkConflict_eq date hm, if_neg hfiled]

/-- A two-meeting course whose first meeting is filed nowhere: the discussion is
checked on the days of the second meeting. -/
theorem checkConflict_of_unfiled {n : Meeting} (hmeet : course.meeting = [m, n])
    (hunfiled : filedDays m.days = []) :
    s.checkConflict date course
      = if filedDays n.days = [] then some false
        else (filedDays n.days).allM fun d => s.checkDiscussion date d n.start_time n.end_time := by
  rw [checkConflict_eq date (CourseData.firstMeeting_of_eq hmeet), if_pos hunfiled, hmeet]
  rfl

/-- Any other course filed nowhere conflicts with nothing. -/
theorem checkConflict_of_unfiled_of_length (hm : course.FirstMeeting m)
    (hunfiled : filedDays m.days = []) (hlen : course.meeting.length ≠ 2) :
    s.checkConflict date course = some false := by
  rw [checkConflict_eq date hm, if_pos hunfiled, if_neg hlen]

/-! ## The two operations -/

/-- **What an add does.** A refused course changes only the flag; an accepted one
is appended to the lists of its days and its section id to `currClasses`. -/
theorem addToSchedule_eq (hm : course.FirstMeeting m) :
    s.addToSchedule date course = (s.checkConflict date course).map fun conflict =>
      if conflict then { s with addFailed := true }
      else { s.fileUnder m.days course with
              currClasses := s.currClasses ++ [course.sectionID], addFailed := false } := by
  rw [addToSchedule, hm]
  rcases s.checkConflict date course with _ | _ | _
  · rfl
  · simp only [Option.bind_eq_bind, Option.bind_some, Bool.false_eq_true, if_false,
      fileUnder_currClasses, Option.map_some]
    rfl
  · rfl

theorem removeFromSchedule_eq (hm : course.FirstMeeting m) :
    s.removeFromSchedule course
      = some (({ s with currClasses := s.currClasses.erase course.sectionID } : ScheduleModel).unfile
          m.days course) := by
  rw [removeFromSchedule, hm, removeFirst_eq_erase]
  rfl

/-- The lists after an accepted add. -/
theorem currSchedule_of_accepted (hm : course.FirstMeeting m) (d : Day) :
    (s.fileUnder m.days course).currSchedule d
      = if d ∈ course.filedDays then s.currSchedule d ++ [course] else s.currSchedule d := by
  rw [fileUnder_currSchedule, hm.filedDays_eq]

/-- The lists after a removal. -/
theorem removeFromSchedule_currSchedule (hm : course.FirstMeeting m) :
    ∃ s', s.removeFromSchedule course = some s' ∧ ∀ d, s'.currSchedule d
      = if d ∈ course.filedDays then (s.currSchedule d).erase course else s.currSchedule d := by
  refine ⟨_, removeFromSchedule_eq hm, fun d => ?_⟩
  rw [unfile_currSchedule, hm.filedDays_eq]

/-- A removal leaves a part of each list. -/
theorem removeFromSchedule_sublist (hm : course.FirstMeeting m) :
    ∃ s', s.removeFromSchedule course = some s' ∧
      ∀ d, (s'.currSchedule d).Sublist (s.currSchedule d) := by
  obtain ⟨s', hs', hlists⟩ := removeFromSchedule_currSchedule (s := s) hm
  refine ⟨s', hs', fun d => ?_⟩
  rw [hlists d]
  split_ifs
  · exact List.erase_sublist
  · exact List.Sublist.refl _

/-- **What an add did**, told from the schedule it left: it was refused and set
the flag, or it was accepted and filed the course. A course without meetings
traps, as `meeting[0]` is out of range. -/
theorem addToSchedule_cases {date : DateFrom} {s' : ScheduleModel} (h : s.addToSchedule date course = some s') :
    ∃ m, course.FirstMeeting m ∧
      ((s.checkConflict date course = some true ∧ s' = { s with addFailed := true }) ∨
        (s.checkConflict date course = some false ∧
          s' = { s.fileUnder m.days course with
                  currClasses := s.currClasses ++ [course.sectionID], addFailed := false })) := by
  have hne : course.meeting ≠ [] := by
    intro hnil
    rw [addToSchedule, checkConflict, hnil] at h
    cases h
  obtain ⟨m, hm⟩ := CourseData.exists_firstMeeting hne
  refine ⟨m, hm, ?_⟩
  rw [addToSchedule_eq date hm] at h
  obtain ⟨refused, hrefused, rfl⟩ := Option.map_eq_some_iff.mp h
  cases refused with
  | true => exact Or.inl ⟨hrefused, rfl⟩
  | false => exact Or.inr ⟨hrefused, rfl⟩

/-- **What a removal did.** -/
theorem removeFromSchedule_cases {s' : ScheduleModel} (h : s.removeFromSchedule course = some s') :
    ∃ m, course.FirstMeeting m ∧
      s' = ({ s with currClasses := s.currClasses.erase course.sectionID } : ScheduleModel).unfile
        m.days course := by
  have hne : course.meeting ≠ [] := by
    intro hnil
    rw [removeFromSchedule, hnil] at h
    cases h
  obtain ⟨m, hm⟩ := CourseData.exists_firstMeeting hne
  rw [removeFromSchedule_eq hm] at h
  exact ⟨m, hm, (Option.some.inj h).symm⟩

/-- **What a call can file.** An entry that a call leaves on a list was there
before, or it is the course of an add that was accepted, and the list is one of
its days. -/
theorem mem_of_step {s' : ScheduleModel} {call : Call} {d : Day} {e : CourseData}
    (hstep : call.step date s = some s') (he : e ∈ s'.currSchedule d) :
    e ∈ s.currSchedule d ∨
      (call = .add e ∧ d ∈ e.filedDays ∧ s.checkConflict date e = some false) := by
  rcases call with course | course
  · obtain ⟨m, hm, ⟨-, rfl⟩ | ⟨haccepted, rfl⟩⟩ := addToSchedule_cases hstep
    · exact Or.inl he
    · -- accepted: the lists of the course's days have the course at their end
      have hfiled : e ∈ (s.fileUnder m.days course).currSchedule d := he
      rw [currSchedule_of_accepted hm] at hfiled
      by_cases hd : d ∈ course.filedDays
      · rw [if_pos hd, List.mem_append, List.mem_singleton] at hfiled
        rcases hfiled with hfiled | rfl
        · exact Or.inl hfiled
        · exact Or.inr ⟨rfl, hd, haccepted⟩
      · rw [if_neg hd] at hfiled
        exact Or.inl hfiled
  · obtain ⟨m, hm, -⟩ := removeFromSchedule_cases hstep
    obtain ⟨s'', hs'', hsub⟩ := removeFromSchedule_sublist (s := s) hm
    obtain rfl : s'' = s' := Option.some.inj (hs''.symm.trans hstep)
    exact Or.inl ((hsub d).subset he)

end ScheduleModel

end TerpBuilder

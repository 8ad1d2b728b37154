/-
Does the order of adding matter?

Adding a list of courses one after another accepts them all exactly when each
course finds a day of its own on which it is staggered with every course before
it. That day may be another one in another order, or there may be none: the
conflict check asks for a clash on every day of the new course only, so a course
with several days slips in after a clashing one and keeps it out when it comes
first. The theorem at the end says for which lists this cannot happen.
-/
import TerpBuilder.Booking
import TerpBuilder.Ledger

set_option autoImplicit false

namespace TerpBuilder

open CourseData

namespace ScheduleModel

/-- Adding the courses one after another accepts every one of them. -/
def AcceptsAll (date : DateFrom) : ScheduleModel → List CourseData → Prop
  | _, [] => True
  | s, course :: courses => ∃ s', s.addToSchedule date course = some s' ∧ s'.addFailed = false ∧
      AcceptsAll date s' courses

/-- Adding a list can be tried out. -/
instance decidableAcceptsAll (date : DateFrom) :
    ∀ (s : ScheduleModel) (courses : List CourseData), Decidable (AcceptsAll date s courses)
  | _, [] => .isTrue trivial
  | s, course :: courses =>
      match h : s.addToSchedule date course with
      | none => .isFalse fun ⟨_, hs', _⟩ => Option.some_ne_none _ (hs'.symm.trans h)
      | some s' =>
          have := decidableAcceptsAll date s' courses
          decidable_of_iff (s'.addFailed = false ∧ AcceptsAll date s' courses)
            ⟨fun hok => ⟨s', h, hok⟩, fun ⟨_, ht, hok⟩ => Option.some.inj (h.symm.trans ht) ▸ hok⟩

/-- The course has a day on which it is staggered with every one of the others
that meets that day. -/
def FreeDay (others : List CourseData) (course : CourseData) : Prop :=
  ∃ d ∈ course.filedDays, ∀ e ∈ others, d ∈ e.filedDays → Lectures Span.Staggered e course

variable {date : DateFrom}

/-! ## Accepting a list -/

/-- After the courses of `L` were filed, one more is accepted exactly when it
has a free day among them, and then it is filed as well. -/
theorem add_iff_freeDay (hdate : date.ReadsClock) {s : ScheduleModel} {L : List CourseData}
    (hs : ∀ d, s.currSchedule d = filedOn L d) (hL : ∀ e ∈ L, e.Timed) {course : CourseData}
    (hc : Recognised course) :
    ∃ s', s.addToSchedule date course = some s' ∧ (s'.addFailed = false ↔ FreeDay L course) ∧
      (s'.addFailed = false → ∀ d, s'.currSchedule d = filedOn (L ++ [course]) d) := by
  obtain ⟨m, hm, -⟩ := hc.1
  have htimed : s.AllTimed := by
    intro d e he
    rw [hs d, mem_filedOn] at he
    exact hL e he.1
  obtain ⟨b, hb, hverdict⟩ :=
    checkConflict_iff_nested hdate htimed hc.2 (filedDays_ne_nil_of_recognised hc)
  have hfree : b = false ↔ FreeDay L course := by
    rw [← Bool.not_eq_true, hverdict, not_forall]
    simp only [not_forall, not_exists, not_and, exists_prop, FreeDay]
    refine exists_congr fun d => and_congr_right fun _ => ?_
    constructor
    · intro h e he hd
      by_contra hst
      exact h e (by rw [hs d, mem_filedOn]; exact ⟨he, hd⟩)
        ((not_staggered_iff_nested (hL e he) hc.2).mp hst)
    · intro h e he
      rw [hs d, mem_filedOn] at he
      exact fun hn => (not_staggered_iff_nested (hL e he.1) hc.2).mpr hn (h e he.1 he.2)
  rw [addToSchedule_eq date hm, hb, Option.map_some]
  refine ⟨_, rfl, ?_⟩
  rw [← hfree]
  -- a refused course sets the flag, an accepted one is filed
  by_cases hrefused : b = true
  · rw [if_pos hrefused, hrefused]
    exact ⟨Iff.rfl, fun h => absurd h (by simp)⟩
  · rw [if_neg hrefused, Bool.eq_false_iff.mpr hrefused]
    refine ⟨Iff.rfl, fun _ d => ?_⟩
    rw [filedOn_concat, ← hs d, FirstMeeting.filedDays_eq hm]
    exact fileUnder_currSchedule m.days course s d

/-- **What accepting a list takes**: a free day for each course among those
before it. -/
theorem acceptsAll_iff (hdate : date.ReadsClock) {s : ScheduleModel} {L courses : List CourseData}
    (hs : ∀ d, s.currSchedule d = filedOn L d) (hL : ∀ e ∈ L, e.Timed)
    (hc : ∀ c ∈ courses, Recognised c) :
    AcceptsAll date s courses ↔
      ∀ pre c post, courses = pre ++ c :: post → FreeDay (L ++ pre) c := by
  induction courses generalizing s L with
  | nil =>
      refine ⟨fun _ pre c post h => absurd h.symm (by simp), fun _ => trivial⟩
  | cons a courses ih =>
      obtain ⟨s', hs', hfree, hlists⟩ := add_iff_freeDay hdate hs hL (hc a List.mem_cons_self)
      have hL' : ∀ e ∈ L ++ [a], e.Timed := by
        intro e he
        rcases List.mem_append.mp he with he | he
        · exact hL e he
        · exact List.mem_singleton.mp he ▸ (hc a List.mem_cons_self).2
      have hrest := fun hok : s'.addFailed = false =>
        ih (hlists hok) hL' fun c h => hc c (List.mem_cons_of_mem _ h)
      constructor
      · -- the first course, and then the rest after it
        rintro ⟨t, ht, hok, hacc⟩ pre c post heq
        obtain rfl : s' = t := Option.some.inj (hs'.symm.trans ht)
        rcases pre with _ | ⟨b, pre⟩
        · obtain ⟨rfl, rfl⟩ := List.cons.inj heq
          rw [List.append_nil]
          exact hfree.mp hok
        · obtain ⟨rfl, rfl⟩ := List.cons.inj heq
          have := (hrest hok).mp hacc pre c post rfl
          rwa [List.append_assoc] at this
      · intro h
        have hok : s'.addFailed = false := hfree.mpr (by simpa using h [] a courses rfl)
        refine ⟨s', hs', hok, (hrest hok).mpr fun pre c post heq => ?_⟩
        rw [List.append_assoc]
        exact h (a :: pre) c post (by rw [heq]; rfl)

/-! ## Every order -/

/-- **When the order does not matter.** A list of recognised courses with
distinct ids, whether or not it is accepted in the order given, is accepted in
every order exactly when each course has a day on which it is staggered with every
other course of the list that meets that day. -/
theorem acceptsAll_perm_iff (hdate : date.ReadsClock) (courses : List CourseData)
    (hc : ∀ c ∈ courses, Recognised c) (hids : (courses.map (·.sectionID)).Nodup) :
    (∀ courses', courses.Perm courses' → AcceptsAll date empty courses') ↔
      ∀ c ∈ courses, ∃ d ∈ c.filedDays, ∀ e ∈ courses, e.sectionID ≠ c.sectionID →
        d ∈ e.filedDays → Lectures Span.Staggered e c := by
  have hiff : ∀ courses', courses.Perm courses' → (AcceptsAll date empty courses' ↔
      ∀ pre c post, courses' = pre ++ c :: post → FreeDay pre c) := by
    intro courses' hperm
    refine acceptsAll_iff hdate (L := []) (fun _ => rfl) (fun e he => absurd he List.not_mem_nil) ?_
    exact fun c h => hc c (hperm.mem_iff.mpr h)
  constructor
  · intro h c hmem
    -- put the course last, so that all the others come before it
    obtain ⟨pre, post, rfl⟩ := List.append_of_mem hmem
    have hperm : (pre ++ c :: post).Perm ((pre ++ post) ++ [c]) :=
      List.perm_middle.trans (List.perm_append_singleton c (pre ++ post)).symm
    obtain ⟨d, hd, hfree⟩ := (hiff _ hperm).mp (h _ hperm) (pre ++ post) c [] rfl
    refine ⟨d, hd, fun e he hid hde => hfree e ?_ hde⟩
    rcases List.mem_append.mp he with he | he
    · exact List.mem_append_left _ he
    · rcases List.mem_cons.mp he with rfl | he
      · exact absurd rfl hid
      · exact List.mem_append_right _ he
  · -- the day that is free among all the others is free among those before
    intro h courses' hperm
    rw [hiff courses' hperm]
    rintro pre c post rfl
    obtain ⟨d, hd, hfree⟩ := h c (hperm.mem_iff.mpr (by simp))
    have hnodup : ((pre ++ c :: post).map (·.sectionID)).Nodup := (hperm.map _).nodup_iff.mp hids
    rw [List.map_append, List.map_cons, List.nodup_append] at hnodup
    refine ⟨d, hd, fun e he hde => hfree e (hperm.mem_iff.mpr (List.mem_append_left _ he)) ?_ hde⟩
    exact hnodup.2.2 e.sectionID (List.mem_map_of_mem he) c.sectionID List.mem_cons_self

theorem nineToTenMW_recognised : Recognised nineToTenMW :=
  ⟨⟨.on "MW" "9:00am" "10:00am", rfl, by decide⟩, ⟨540, 600⟩, by decide, by decide⟩

theorem monday_then_mw_recognised : ∀ c ∈ [nineToTen, nineToTenMW], Recognised c := by
  rintro c hc
  rcases List.mem_pair.mp hc with rfl | rfl
  · exact nineToTen_recognised
  · exact nineToTenMW_recognised

/-- Monday first, then Monday and Wednesday: accepted. The other way round the
Monday lecture is refused. -/
theorem acceptance_depends_on_order :
    ¬ ∀ (date : DateFrom), date.ReadsClock → ∀ courses courses' : List CourseData,
      (∀ c ∈ courses, Recognised c ∧ c.meeting.length = 1) → (courses.map (·.sectionID)).Nodup →
      courses.Perm courses' → AcceptsAll date empty courses → AcceptsAll date empty courses' := by
  intro h
  have hswap := h .strict DateFrom.strict_readsClock [nineToTen, nineToTenMW] [nineToTenMW, nineToTen]
    (fun c hc => ⟨monday_then_mw_recognised c hc, by
      rcases List.mem_pair.mp hc with rfl | rfl <;> rfl⟩)
    (by decide) (List.Perm.swap _ _ _) (by decide)
  exact absurd hswap (by decide)

/-- The same two courses, of which only the first order is accepted. -/
theorem acceptsAll_perm_iff_two :
    (∀ courses', [nineToTen, nineToTenMW].Perm courses' → AcceptsAll .strict empty courses') ↔
      ∀ c ∈ [nineToTen, nineToTenMW], ∃ d ∈ c.filedDays, ∀ e ∈ [nineToTen, nineToTenMW],
        e.sectionID ≠ c.sectionID → d ∈ e.filedDays → Lectures Span.Staggered e c :=
  acceptsAll_perm_iff DateFrom.strict_readsClock _ monday_then_mw_recognised (by decide)

end ScheduleModel

end TerpBuilder

/-
What the views are told of the writes that the server has not acknowledged.

A view at a path shows the data of the server with the visible writes layered on
it, in the order in which they were made. `FWriteTree` does not layer them anew
for every view: it reads its compound write, and that is right as long as the
compound write is what layering the visible records gives. Adds keep it so. A
removal takes one of three ways, and each of them is right under a condition of
its own, which is `SafeToRemove`.

Where it is not met, a removal goes wrong in one of these ways. A record below an
earlier overwrite is in the node of that one, and is not taken out of it. A merge
that is above the removed record, and reaches below it, is not noticed, and what
it wrote there is lost. Building again does not leave the hidden records out.

For the views both comparators have to tell the names apart, as `Name.compareKey`
does, and no visible record may write a priority, since the compound write holds
these back.
-/
import TerpBuilder.WriteTree
import TerpBuilder.Run

set_option autoImplicit false

namespace TerpBuilder.Sync

open FUtilities (Name)
open FNode (Open Proper Plain Apart getChild emptyNode)

namespace FWriteTree

variable {κ ν : Type} [DecidableEq κ] [PriorityKey κ] (cmp scmp : κ → κ → Ordering)

/-! ## Event caches -/

/-- Not excluded, and visible unless the hidden ones are included. -/
def counts (writeIdsToExclude : Option (List ℤ)) (includeHiddenWrites : Bool) (record : FWriteRecord κ ν) : Bool :=
  (record.visible || includeHiddenWrites) &&
    (match writeIdsToExclude with
    | none => true
    | some ids => !ids.contains record.writeId)

/-- The filter of `calculateCompleteEventCacheAtPath`. -/
def cacheFilter (treePath : List κ) (writeIdsToExclude : Option (List ℤ)) (includeHiddenWrites : Bool)
    (record : FWriteRecord κ ν) : Bool :=
  counts writeIdsToExclude includeHiddenWrites record &&
    (decide (record.path <+: treePath) || decide (treePath <+: record.path))

def calculateCompleteEventCacheAtPath (self : FWriteTree κ ν) (treePath : List κ)
    (completeServerCache : Option (FNode κ ν)) (writeIdsToExclude : Option (List ℤ)) (includeHiddenWrites : Bool) :
    Option (FNode κ ν) :=
  if writeIdsToExclude.isNone && !includeHiddenWrites then
    match self.visibleWrites.completeNodeAtPath cmp scmp treePath with
    | some shadowingNode => some shadowingNode
    | none =>
      -- "No cache here. Can't claim complete knowledge."
      let subMerge := self.visibleWrites.childCompoundWriteAtPath cmp scmp treePath
      if subMerge.isEmpty then completeServerCache
      else if completeServerCache.isNone && !subMerge.hasCompleteWriteAtPath cmp scmp [] then none
      else some (subMerge.applyToNode cmp (completeServerCache.getD emptyNode))
  else
    let merge := self.visibleWrites.childCompoundWriteAtPath cmp scmp treePath
    if !includeHiddenWrites && merge.isEmpty then completeServerCache
    else if !includeHiddenWrites && completeServerCache.isNone && !merge.hasCompleteWriteAtPath cmp scmp [] then none
    else
      let filter := cacheFilter treePath writeIdsToExclude includeHiddenWrites
      let mergeAtPath := layerTreeFromWrites cmp scmp self.allWrites filter treePath
      some (mergeAtPath.applyToNode cmp (completeServerCache.getD emptyNode))

/-- The result is nil where a write shadows the path: there is no event to be
raised. "Either existingEventSnap or existingServerSnap must exist" is an assertion. -/
def calculateEventCacheAfterServerOverwriteAtPath (self : FWriteTree κ ν) (treePath childPath : List κ)
    (existingEventSnap existingServerSnap : Option (FNode κ ν)) : Option (Option (FNode κ ν)) :=
  if existingEventSnap.isNone && existingServerSnap.isNone then none
  else
    let path := treePath ++ childPath
    if self.visibleWrites.hasCompleteWriteAtPath cmp scmp path then some none
    else
      let childMerge := self.visibleWrites.childCompoundWriteAtPath cmp scmp path
      -- a message to nil is nil
      some (existingServerSnap.map fun snap =>
        if childMerge.isEmpty then getChild cmp snap childPath
        else childMerge.applyToNode cmp (getChild cmp snap childPath))

variable {cmp scmp}

/-! ## What a removal does -/

/-- A later record that is visible contains the path. -/
def Shadowed (post : List (FWriteRecord κ ν)) (r : FWriteRecord κ ν) : Prop :=
  ∃ c ∈ post, c.visible = true ∧ c.containsPath r.path = true

/-- A record that is visible lies at the path or below. -/
def Overlapped (others : List (FWriteRecord κ ν)) (r : FWriteRecord κ ν) : Prop :=
  ∃ c ∈ others, c.visible = true ∧ r.path <+: c.path

omit [PriorityKey κ] in
theorem removalLoop_fst (r : FWriteRecord κ ν) (index : ℕ) (overlaps : Bool) (l : List (FWriteRecord κ ν × ℕ)) :
    (removalLoop r index overlaps l).1 = true ↔
      ¬ ∃ x ∈ l, x.2 ≥ index ∧ x.1.visible = true ∧ x.1.containsPath r.path = true := by
  induction l generalizing overlaps with
  | nil => simp [removalLoop]
  | cons x l ih =>
    obtain ⟨c, i⟩ := x
    rw [removalLoop, List.exists_mem_cons_iff]
    by_cases hvisible : c.visible = true
    · rw [if_pos hvisible]
      by_cases hshadow : i ≥ index ∧ c.containsPath r.path = true
      · rw [if_pos hshadow]
        simp [hshadow, hvisible]
      · rw [if_neg hshadow]
        have hhead : ¬ (i ≥ index ∧ c.visible = true ∧ c.containsPath r.path = true) := fun h => hshadow ⟨h.1, h.2.2⟩
        rw [or_iff_right hhead]
        split_ifs <;> exact ih _
    · rw [if_neg hvisible, or_iff_right fun h => hvisible h.2.1]
      exact ih _

omit [PriorityKey κ] in
/-- Where the loop is not left early it has seen every record. -/
theorem removalLoop_snd {r : FWriteRecord κ ν} {index : ℕ} {overlaps : Bool} {l : List (FWriteRecord κ ν × ℕ)}
    (h : (removalLoop r index overlaps l).1 = true) :
    (removalLoop r index overlaps l).2 = true ↔
      overlaps = true ∨ ∃ x ∈ l, x.1.visible = true ∧ r.path <+: x.1.path := by
  induction l generalizing overlaps with
  | nil => simp [removalLoop]
  | cons x l ih =>
    obtain ⟨c, i⟩ := x
    rw [removalLoop] at h ⊢
    rw [List.exists_mem_cons_iff]
    by_cases hvisible : c.visible = true
    · rw [if_pos hvisible] at h ⊢
      by_cases hshadow : i ≥ index ∧ c.containsPath r.path = true
      · rw [if_pos hshadow] at h
        cases h
      · rw [if_neg hshadow] at h ⊢
        by_cases hpre : r.path <+: c.path
        · rw [if_pos hpre] at h ⊢
          rw [ih h]
          simp [hvisible, hpre]
        · rw [if_neg hpre] at h ⊢
          rw [ih h, or_iff_right (a := c.visible = true ∧ r.path <+: c.path) fun h => hpre h.2]
    · rw [if_neg hvisible] at h ⊢
      rw [ih h, or_iff_right (a := c.visible = true ∧ r.path <+: c.path) fun h => hvisible h.1]

omit [DecidableEq κ] [PriorityKey κ] in
/-- What is at the index or after it, when the one at the index is taken out. -/
theorem exists_zipIdx_iff (pre post : List (FWriteRecord κ ν)) (P : FWriteRecord κ ν → Prop) :
    (∃ x ∈ (pre ++ post).zipIdx.reverse, x.2 ≥ pre.length ∧ P x.1) ↔ ∃ c ∈ post, P c := by
  constructor
  · rintro ⟨⟨c, i⟩, hx, hi, hc⟩
    have hget := List.mem_zipIdx_iff_getElem?.mp (List.mem_reverse.mp hx)
    rw [List.getElem?_append_right hi] at hget
    exact ⟨c, List.mem_of_getElem? hget, hc⟩
  · rintro ⟨c, hc, hP⟩
    obtain ⟨i, hi⟩ := List.mem_iff_getElem?.mp hc
    refine ⟨(c, pre.length + i), List.mem_reverse.mpr (List.mem_zipIdx_iff_getElem?.mpr ?_), by simp, hP⟩
    rw [List.getElem?_append_right (by simp), Nat.add_sub_cancel_left]
    exact hi

omit [DecidableEq κ] [PriorityKey κ] in
theorem exists_zipIdx_iff_all (others : List (FWriteRecord κ ν)) (P : FWriteRecord κ ν → Prop) :
    (∃ x ∈ others.zipIdx.reverse, P x.1) ↔ ∃ c ∈ others, P c := by
  have h := exists_zipIdx_iff [] others P
  simpa using h

omit [PriorityKey κ] in
/-- **What the loop finds**, over the records without the removed one. -/
theorem removalLoop_spec (pre post : List (FWriteRecord κ ν)) (r : FWriteRecord κ ν) {seen overlaps : Bool}
    (h : removalLoop r pre.length false (pre ++ post).zipIdx.reverse = (seen, overlaps)) :
    (seen = true ↔ ¬ Shadowed post r) ∧ (seen = true → (overlaps = true ↔ Overlapped (pre ++ post) r)) := by
  have hfst := removalLoop_fst r pre.length false (pre ++ post).zipIdx.reverse
  rw [exists_zipIdx_iff pre post fun c => c.visible = true ∧ c.containsPath r.path = true, h] at hfst
  refine ⟨hfst, fun hseen => ?_⟩
  have hsnd := removalLoop_snd ((congrArg Prod.fst h).trans hseen)
  rw [exists_zipIdx_iff_all _ fun c => c.visible = true ∧ r.path <+: c.path, h] at hsnd
  exact hsnd.trans (or_iff_right Bool.false_ne_true)

/-- **What a removal does**: the first record of the id goes, and the compound write
is left alone, built again or changed in place. -/
theorem removeWriteId_cases {self self' : FWriteTree κ ν} {writeId : ℤ} {visible : Bool}
    (h : self.removeWriteId cmp scmp writeId = some (self', visible)) :
    ∃ pre r post, self.allWrites = pre ++ r :: post ∧ r.writeId = writeId ∧ (∀ c ∈ pre, c.writeId ≠ writeId) ∧
      self'.allWrites = pre ++ post ∧
      ((r.visible = false ∧ self'.visibleWrites = self.visibleWrites) ∨
        (r.visible = true ∧ Shadowed post r ∧ self'.visibleWrites = self.visibleWrites) ∨
        (r.visible = true ∧ ¬ Shadowed post r ∧ Overlapped (pre ++ post) r ∧
          self'.visibleWrites = layered cmp scmp (pre ++ post)) ∨
        (r.visible = true ∧ ¬ Shadowed post r ∧ ¬ Overlapped (pre ++ post) r ∧
          self'.visibleWrites = removeInPlace scmp self.visibleWrites r)) := by
  unfold removeWriteId at h
  obtain ⟨index, hindex, h⟩ := Option.bind_eq_some_iff.mp h
  obtain ⟨r, hr, h⟩ := Option.bind_eq_some_iff.mp h
  obtain ⟨hlt, hid, hfirst⟩ := List.findIdx?_eq_some_iff_getElem.mp hindex
  obtain ⟨_, hrget⟩ := List.getElem?_eq_some_iff.mp hr
  -- the record is between those before it and those after it
  have hsplit : self.allWrites = self.allWrites.take index ++ r :: self.allWrites.drop (index + 1) := by
    rw [← hrget, List.getElem_cons_drop hlt, List.take_append_drop]
  have hlen : (self.allWrites.take index).length = index := List.length_take_of_le hlt.le
  have hbefore : ∀ c ∈ self.allWrites.take index, c.writeId ≠ writeId := by
    intro c hc
    obtain ⟨j, hj, rfl⟩ := List.mem_take_iff_getElem.mp hc
    exact fun heq => hfirst j (by omega) (decide_eq_true heq)
  rw [List.eraseIdx_eq_take_drop_succ] at h
  generalize hpre : self.allWrites.take index = pre at h hsplit hlen hbefore
  generalize hpost : self.allWrites.drop (index + 1) = post at h hsplit
  have hwriteId : r.writeId = writeId := by
    rw [hrget] at hid
    exact of_decide_eq_true hid
  refine ⟨pre, r, post, hsplit, hwriteId, hbefore, ?_⟩
  dsimp only at h
  by_cases hvisible : r.visible = true
  · rw [if_pos hvisible, ← hlen] at h
    rcases hloop : removalLoop r pre.length false (pre ++ post).zipIdx.reverse with ⟨seen, overlaps⟩
    obtain ⟨hseen, hoverlaps⟩ := removalLoop_spec pre post r hloop
    rw [hloop] at h
    rcases seen with _ | _
    · obtain ⟨rfl, -⟩ := Prod.mk.inj (Option.some.inj h)
      exact ⟨rfl, Or.inr (Or.inl ⟨hvisible, not_not.mp fun hnot => Bool.false_ne_true (hseen.mpr hnot), rfl⟩)⟩
    · have hnot := hseen.mp rfl
      rcases overlaps with _ | _
      · obtain ⟨rfl, -⟩ := Prod.mk.inj (Option.some.inj h)
        have hover : ¬ Overlapped (pre ++ post) r := fun hover => Bool.false_ne_true ((hoverlaps rfl).mpr hover)
        exact ⟨rfl, Or.inr (Or.inr (Or.inr ⟨hvisible, hnot, hover, rfl⟩))⟩
      · obtain ⟨rfl, -⟩ := Prod.mk.inj (Option.some.inj h)
        refine ⟨rfl, Or.inr (Or.inr (Or.inl ⟨hvisible, hnot, (hoverlaps rfl).mp rfl, ?_⟩))⟩
        show layerTreeFromWrites cmp scmp (pre ++ post) defaultFilter [] = _
        rw [layerTreeFromWrites_root]
        exact congrArg _ (List.filter_eq_self.mpr fun _ _ => rfl)
  · rw [if_neg hvisible] at h
    obtain ⟨rfl, -⟩ := Prod.mk.inj (Option.some.inj h)
    exact ⟨rfl, Or.inl ⟨Bool.eq_false_iff.mpr hvisible, rfl⟩⟩

/-! ## When it is right -/

/-- When a visible record between some others may be taken out of the compound
write the way `removeWriteId:` does it. -/
structure SafeToRemove (pre : List (FWriteRecord κ ν)) (r : FWriteRecord κ ν) (post : List (FWriteRecord κ ν)) :
    Prop where
  /-- A shadowed record is not in the node of an earlier one. -/
  shadowed : Shadowed post r → ∀ c ∈ pre, c.visible = true → ∀ x ∈ c.writes, x.1 <+: r.path → x.1 = r.path
  /-- Nothing is hidden when the compound write is built again. -/
  rebuilt : ¬ Shadowed post r → Overlapped (pre ++ post) r → ∀ c ∈ pre ++ post, c.visible = true
  /-- What is taken out in place is apart from the rest. -/
  inPlace : ¬ Shadowed post r → ¬ Overlapped (pre ++ post) r →
    ∀ c ∈ pre ++ post, c.visible = true → ∀ x ∈ c.writes, ∀ y ∈ r.writes, Apart x.1 y.1

section Lawful

variable [Std.TransCmp scmp] [Std.LawfulEqCmp scmp]
variable {pre post records : List (FWriteRecord κ ν)} {r : FWriteRecord κ ν} {w : FCompoundWrite κ ν} {q : List κ}

omit [DecidableEq κ] [PriorityKey κ] in
theorem proper_of_mem_writesOf (h : ∀ r ∈ records, r.Wf scmp) : ∀ x ∈ writesOf records, Proper x.2 := by
  intro x hx
  obtain ⟨r, hr, hx⟩ := List.mem_flatMap.mp hx
  exact (h r hr).proper hx

omit [Std.TransCmp scmp] [Std.LawfulEqCmp scmp] in
theorem layered_append (a b : List (FWriteRecord κ ν)) :
    layered cmp scmp (a ++ b) = (layered cmp scmp a).addWrites cmp scmp (writesOf b) := by
  unfold layered
  rw [writesOf_append, FCompoundWrite.addWrites_append]

omit [Std.TransCmp scmp] [Std.LawfulEqCmp scmp] in
theorem layered_split (pre : List (FWriteRecord κ ν)) (r : FWriteRecord κ ν) (post : List (FWriteRecord κ ν)) :
    layered cmp scmp (pre ++ r :: post) =
      ((layered cmp scmp pre).addWrites cmp scmp r.writes).addWrites cmp scmp (writesOf post) := by
  rw [layered_append, writesOf_cons, FCompoundWrite.addWrites_append]

/-- **A shadowed record** can be left out, unless it went into the node of an
earlier one. -/
theorem layered_shadowed (hwf : ∀ c ∈ pre ++ r :: post, c.Wf scmp)
    (habove : ∀ x ∈ writesOf pre, x.1 <+: r.path → x.1 = r.path) (hshadow : ∃ x ∈ writesOf post, x.1 <+: r.path) :
    layered cmp scmp (pre ++ r :: post) = layered cmp scmp (pre ++ post) := by
  have hpre : ∀ c ∈ pre, c.Wf scmp := fun c hc => hwf c (List.mem_append_left _ hc)
  have hr : r.Wf scmp := hwf r (List.mem_append_right pre List.mem_cons_self)
  have hpost : ∀ c ∈ post, c.Wf scmp := fun c hc => hwf c (List.mem_append_right pre (List.mem_cons_of_mem r hc))
  have hw : (layered cmp scmp pre).Wf scmp := wf_layered hpre
  have hin : ∀ x ∈ r.writes, r.path <+: x.1 ∧ Proper x.2 := fun x hx => ⟨FWriteRecord.prefix_of_mem_writes hx, hr.proper hx⟩
  -- the region is what is at the path of the record or below
  have hagree : AgreeOutside scmp (r.path <+: ·) (layered cmp scmp pre) (layered cmp scmp pre) := by
    refine .refl fun q u hq hout y hy => ?_
    obtain ⟨x, hx, rfl⟩ := exists_write_of_layered hpre hq
    refine not_prefix_of_apart (fun hxr => hout ?_) hout hy
    rw [habove x hx hxr]
  have hadded : AgreeOutside scmp (r.path <+: ·) ((layered cmp scmp pre).addWrites cmp scmp r.writes)
      (layered cmp scmp pre) := hagree.addWrites_left (fun _ _ => List.IsPrefix.trans) hw hin
  rw [layered_split, layered_append]
  exact hadded.addWrites_eq (FCompoundWrite.wf_addWrites hw fun x hx => (hin x hx).2) hw
    (proper_of_mem_writesOf hpost) hshadow

omit [DecidableEq κ] [PriorityKey κ] [Std.TransCmp scmp] [Std.LawfulEqCmp scmp] in
/-- The writes of the record are removed one after the other. -/
theorem removeInPlace_eq (w : FCompoundWrite κ ν) (r : FWriteRecord κ ν) :
    removeInPlace scmp w r = r.writes.foldl (fun w x => w.removeWriteAtPath scmp x.1) w := by
  unfold removeInPlace FWriteRecord.writes
  rcases r.data with node | merge
  · rfl
  · rw [List.foldl_map]

omit [PriorityKey κ] in
/-- What is taken out, and what stays. -/
theorem removeWrites_spec (ws : List (List κ × FNode κ ν)) (hw : w.Wf scmp) :
    (ws.foldl (fun w x => w.removeWriteAtPath scmp x.1) w).Wf scmp ∧
      ((∃ x ∈ ws, x.1 <+: q) →
        (ws.foldl (fun w x => w.removeWriteAtPath scmp x.1) w).writeTree.valueAtPath scmp q = none) ∧
      ((∀ x ∈ ws, ¬ x.1 <+: q) → (ws.foldl (fun w x => w.removeWriteAtPath scmp x.1) w).writeTree.valueAtPath scmp q
        = w.writeTree.valueAtPath scmp q) := by
  induction ws using List.reverseRecOn with
  | nil =>
    refine ⟨hw, fun h => ?_, fun _ => rfl⟩
    obtain ⟨x, hx, -⟩ := h
    cases hx
  | append_singleton ws x ih =>
    obtain ⟨hwf, hgone, hkept⟩ := ih
    rw [List.foldl_concat]
    refine ⟨FCompoundWrite.wf_removeWriteAtPath hwf x.1, fun h => ?_, fun h => ?_⟩
    · rw [FCompoundWrite.valueAtPath_removeWriteAtPath hwf]
      split_ifs with hx
      · rfl
      · refine hgone ?_
        obtain ⟨y, hy, hyq⟩ := h
        rcases List.mem_append.mp hy with hy | hy
        · exact ⟨y, hy, hyq⟩
        · rw [List.mem_singleton.mp hy] at hyq
          exact absurd hyq hx
    · rw [FCompoundWrite.valueAtPath_removeWriteAtPath hwf, if_neg (h x (by simp))]
      exact hkept fun y hy => h y (List.mem_append_left _ hy)

/-- **A record apart from the others** can be taken out in place. -/
theorem removeInPlace_layered (hwf : ∀ c ∈ pre ++ r :: post, c.Wf scmp)
    (hapart : ∀ x ∈ writesOf (pre ++ post), ∀ y ∈ r.writes, Apart x.1 y.1) :
    removeInPlace scmp (layered cmp scmp (pre ++ r :: post)) r = layered cmp scmp (pre ++ post) := by
  have hpre : ∀ c ∈ pre, c.Wf scmp := fun c hc => hwf c (List.mem_append_left _ hc)
  have hr : r.Wf scmp := hwf r (List.mem_append_right pre List.mem_cons_self)
  have hpost : ∀ c ∈ post, c.Wf scmp := fun c hc => hwf c (List.mem_append_right pre (List.mem_cons_of_mem r hc))
  have hothers : ∀ c ∈ pre ++ post, c.Wf scmp := fun c hc => (List.mem_append.mp hc).elim (hpre c) (hpost c)
  have hw : (layered cmp scmp pre).Wf scmp := wf_layered hpre
  have hw' : (layered cmp scmp (pre ++ post)).Wf scmp := wf_layered hothers
  -- the region is what is at the writes of the record or below
  let D : List κ → Prop := fun q => ∃ y ∈ r.writes, y.1 <+: q
  have hD : ∀ p q, D p → p <+: q → D q := fun p q ⟨y, hy, hyp⟩ hpq => ⟨y, hy, hyp.trans hpq⟩
  have hout : ∀ x ∈ writesOf (pre ++ post), ¬ D x.1 ∧ ∀ z, D z → ¬ x.1 <+: z := by
    intro x hx
    refine ⟨fun ⟨y, hy, hyx⟩ => (hapart x hx y hy).2 hyx, fun z ⟨y, hy, hyz⟩ => ?_⟩
    exact not_prefix_of_apart (hapart x hx y hy).1 (hapart x hx y hy).2 hyz
  have hagree : AgreeOutside scmp D (layered cmp scmp (pre ++ r :: post)) (layered cmp scmp (pre ++ post)) := by
    rw [layered_split, layered_append]
    have hrefl : AgreeOutside scmp D (layered cmp scmp pre) (layered cmp scmp pre) := by
      refine .refl fun q u hq _ => ?_
      obtain ⟨x, hx, rfl⟩ := exists_write_of_layered hpre hq
      exact (hout x (by rw [writesOf_append]; exact List.mem_append_left _ hx)).2
    have hleft : AgreeOutside scmp D ((layered cmp scmp pre).addWrites cmp scmp r.writes) (layered cmp scmp pre) :=
      hrefl.addWrites_left hD hw fun x hx => ⟨⟨x, hx, List.prefix_refl _⟩, hr.proper hx⟩
    refine hleft.addWrites_both hD (FCompoundWrite.wf_addWrites hw fun x hx => hr.proper hx) hw
      (proper_of_mem_writesOf hpost) fun x hx => ?_
    exact hout x (by rw [writesOf_append]; exact List.mem_append_right _ hx)
  have hall : (layered cmp scmp (pre ++ r :: post)).Wf scmp := wf_layered hwf
  have hspec := fun q => removeWrites_spec (q := q) r.writes hall
  rw [removeInPlace_eq]
  refine FCompoundWrite.ext_of_values (hspec []).1 hw' fun q => ?_
  by_cases hq : D q
  · -- nothing of the others is in the region
    rw [(hspec q).2.1 hq]
    rcases hv : (layered cmp scmp (pre ++ post)).writeTree.valueAtPath scmp q with _ | u
    · rfl
    · obtain ⟨x, hx, rfl⟩ := exists_write_of_layered hothers hv
      exact absurd hq (hout x hx).1
  · rw [(hspec q).2.2 fun y hy hyq => hq ⟨y, hy, hyq⟩]
    exact hagree.same q hq

/-! ## Runs -/

/-- The compound write is what layering the visible records gives. -/
structure Synced (cmp scmp : κ → κ → Ordering) (tree : FWriteTree κ ν) : Prop where
  wf : ∀ r ∈ tree.allWrites, r.Wf scmp
  visible : tree.visibleWrites = layered cmp scmp (tree.allWrites.filter (·.visible))

/-- Nodes as the constructors allow them, and removals that are safe. -/
def SafeCall (scmp : κ → κ → Ordering) (self : FWriteTree κ ν) : WriteCall κ ν → Prop
  | .overwrite _ newData _ _ => Proper newData
  | .merge _ changedChildren _ => changedChildren.Wf scmp
  | .remove writeId => ∀ pre r post, self.allWrites = pre ++ r :: post → r.writeId = writeId →
      (∀ c ∈ pre, c.writeId ≠ writeId) → r.visible = true → SafeToRemove pre r post
  | .removeAll => True

variable {self self' : FWriteTree κ ν}

omit [Std.TransCmp scmp] [Std.LawfulEqCmp scmp] in
theorem synced_initial : Synced cmp scmp (initial : FWriteTree κ ν) where
  wf _ hr := absurd hr List.not_mem_nil
  visible := rfl

omit [Std.TransCmp scmp] [Std.LawfulEqCmp scmp] in
/-- One more record. -/
theorem synced_concat (h : Synced cmp scmp self) {r : FWriteRecord κ ν} (hr : r.Wf scmp)
    (hall : self'.allWrites = self.allWrites ++ [r])
    (hvisible : self'.visibleWrites =
      if r.visible then self.visibleWrites.addWrites cmp scmp r.writes else self.visibleWrites) :
    Synced cmp scmp self' where
  wf c hc := by
    rw [hall] at hc
    rcases List.mem_append.mp hc with hc | hc
    · exact h.wf c hc
    · rw [List.mem_singleton.mp hc]
      exact hr
  visible := by
    rw [hvisible, hall, List.filter_append, List.filter_cons, List.filter_nil, h.visible]
    split_ifs
    · rw [layered_append]
      simp [writesOf]
    · rw [List.append_nil]

omit [Std.TransCmp scmp] [Std.LawfulEqCmp scmp] in
theorem synced_addOverwrite (h : Synced cmp scmp self) {path : List κ} {newData : FNode κ ν} {writeId : ℤ}
    {visible : Bool} (hproper : Proper newData)
    (hadd : self.addOverwriteAtPath cmp scmp path newData writeId visible = some self') : Synced cmp scmp self' := by
  unfold addOverwriteAtPath at hadd
  by_cases hid : writeId > self.lastWriteId
  · rw [if_pos hid] at hadd
    obtain rfl := Option.some.inj hadd
    exact synced_concat h (r := ⟨path, .overwrite newData, writeId, visible⟩) hproper rfl rfl
  · rw [if_neg hid] at hadd
    cases hadd

omit [Std.TransCmp scmp] [Std.LawfulEqCmp scmp] in
theorem synced_addMerge (h : Synced cmp scmp self) {path : List κ} {changedChildren : FCompoundWrite κ ν} {writeId : ℤ}
    (hwf : changedChildren.Wf scmp)
    (hadd : self.addMergeAtPath cmp scmp path changedChildren writeId = some self') : Synced cmp scmp self' := by
  unfold addMergeAtPath at hadd
  split_ifs at hadd
  obtain rfl := Option.some.inj hadd
  refine synced_concat h (r := ⟨path, .merge changedChildren, writeId, true⟩) hwf rfl ?_
  exact FCompoundWrite.addCompoundWrite_eq _ _ _

/-- **A safe removal** leaves what layering the other visible records gives. -/
theorem synced_remove (h : Synced cmp scmp self) {writeId : ℤ} {visible : Bool}
    (hsafe : SafeCall scmp self (.remove writeId))
    (hremove : self.removeWriteId cmp scmp writeId = some (self', visible)) : Synced cmp scmp self' := by
  obtain ⟨pre, r, post, hall, hid, hfirst, hall', hcases⟩ := removeWriteId_cases hremove
  have hwf : ∀ c ∈ pre ++ r :: post, c.Wf scmp := hall ▸ h.wf
  refine ⟨fun c hc => ?_, ?_⟩
  · rw [hall'] at hc
    rcases List.mem_append.mp hc with hc | hc
    · exact hwf c (List.mem_append_left _ hc)
    · exact hwf c (List.mem_append_right pre (List.mem_cons_of_mem r hc))
  · have hbefore := h.visible
    rw [hall, List.filter_append, List.filter_cons] at hbefore
    rw [hall', List.filter_append]
    have hwfVisible : r.visible = true →
        ∀ c ∈ pre.filter (·.visible) ++ r :: post.filter (·.visible), c.Wf scmp := by
      intro hvisible c hc
      refine hwf c ?_
      rcases List.mem_append.mp hc with hc | hc
      · exact List.mem_append_left _ (List.mem_of_mem_filter hc)
      · rcases List.mem_cons.mp hc with rfl | hc
        · exact List.mem_append_right pre List.mem_cons_self
        · exact List.mem_append_right pre (List.mem_cons_of_mem r (List.mem_of_mem_filter hc))
    rcases hcases with ⟨hhidden, hsame⟩ | ⟨hvisible, hshadow, hsame⟩ | ⟨hvisible, hshadow, hover, hsame⟩ |
      ⟨hvisible, hshadow, hover, hsame⟩
    · -- a hidden record is not layered
      rw [hsame, hbefore, hhidden]
      rfl
    · -- a shadowed one leaves no trace
      rw [hsame, hbefore, if_pos hvisible]
      refine layered_shadowed (hwfVisible hvisible) (fun x hx hpre => ?_) ?_
      · obtain ⟨c, hc, hx⟩ := List.mem_flatMap.mp hx
        obtain ⟨hc, hcvisible⟩ := List.mem_filter.mp hc
        exact (hsafe pre r post hall hid hfirst hvisible).shadowed hshadow c hc hcvisible x hx hpre
      · obtain ⟨c, hc, hcvisible, hcontains⟩ := hshadow
        obtain ⟨x, hx, hpre⟩ := (c.containsPath_iff r.path).mp hcontains
        exact ⟨x, List.mem_flatMap.mpr ⟨c, List.mem_filter.mpr ⟨hc, hcvisible⟩, hx⟩, hpre⟩
    · -- built again, with every record visible
      have hvisibles := (hsafe pre r post hall hid hfirst hvisible).rebuilt hshadow hover
      rw [hsame, ← List.filter_append, List.filter_eq_self.mpr hvisibles]
    · -- taken out in place, apart from the others
      rw [hsame, hbefore, if_pos hvisible]
      refine removeInPlace_layered (hwfVisible hvisible) fun x hx => ?_
      rw [← List.filter_append] at hx
      obtain ⟨c, hc, hx⟩ := List.mem_flatMap.mp hx
      obtain ⟨hc, hcvisible⟩ := List.mem_filter.mp hc
      exact (hsafe pre r post hall hid hfirst hvisible).inPlace hshadow hover c hc hcvisible x hx

theorem synced_step {call : WriteCall κ ν} (h : Synced cmp scmp self) (hsafe : SafeCall scmp self call)
    (hstep : step cmp scmp self call = some self') : Synced cmp scmp self' := by
  cases call with
  | overwrite path newData writeId visible => exact synced_addOverwrite h hsafe hstep
  | merge path changedChildren writeId => exact synced_addMerge h hsafe hstep
  | remove writeId =>
    obtain ⟨⟨after, visible⟩, hremove, rfl⟩ := Option.map_eq_some_iff.mp hstep
    exact synced_remove h hsafe hremove
  | removeAll =>
    obtain rfl := Option.some.inj hstep
    exact ⟨fun r hr => absurd hr List.not_mem_nil, rfl⟩

/-- **Every run** whose removals are safe keeps the compound write what layering
the visible records gives. -/
theorem synced_of_run {calls : List (WriteCall κ ν)} (hsafe : EachStep (step cmp scmp) (SafeCall scmp) initial calls)
    (hrun : run (step cmp scmp) initial calls = some self) : Synced cmp scmp self :=
  run_invariant_of_eachStep (Synced cmp scmp) (SafeCall scmp) (fun _ _ _ h hsafe _ hstep => synced_step h hsafe hstep)
    synced_initial hsafe hrun

/-! ## What the views are told -/

section Views

variable [Std.TransCmp cmp] [Std.LawfulEqCmp cmp] {n n' : FNode κ ν}

omit [Std.TransCmp cmp] [Std.LawfulEqCmp cmp] in
theorem applyToNode_of_isEmpty (h : w.isEmpty = true) (n : FNode κ ν) : w.applyToNode cmp n = n := by
  unfold FCompoundWrite.applyToNode
  rw [FImmutableTree.eq_empty_of_isEmpty h]
  rfl

omit [Std.TransCmp cmp] [Std.LawfulEqCmp cmp] in
theorem fits_layered (hfits : Fits cmp n (writesOf records)) : Fits cmp n (layered cmp scmp records).writes :=
  FCompoundWrite.fits_addWrites (FCompoundWrite.wf_emptyWrite scmp) (fun _ hx => absurd hx List.not_mem_nil) hfits

/-- The compound write of some records performs their writes. -/
theorem applyToNode_layered (hfits : Fits cmp n (writesOf records)) :
    (layered cmp scmp records).applyToNode cmp n = layer cmp (writesOf records) n :=
  FCompoundWrite.applyToNode_addWrites (FCompoundWrite.wf_emptyWrite scmp) (fun _ hx => absurd hx List.not_mem_nil) hfits

omit [Std.TransCmp cmp] [Std.LawfulEqCmp cmp] in
theorem Synced.fits (h : Synced cmp scmp self) (hfits : Fits cmp n (writesOf (self.allWrites.filter (·.visible)))) :
    Fits cmp n self.visibleWrites.writes := by
  rw [h.visible]
  exact fits_layered hfits

omit [Std.TransCmp cmp] [Std.LawfulEqCmp cmp] in
theorem Synced.wf_visibleWrites (h : Synced cmp scmp self) : self.visibleWrites.Wf scmp := by
  rw [h.visible]
  exact wf_layered fun r hr => h.wf r (List.mem_of_mem_filter hr)

theorem Synced.applyToNode (h : Synced cmp scmp self)
    (hfits : Fits cmp n (writesOf (self.allWrites.filter (·.visible)))) :
    self.visibleWrites.applyToNode cmp n = layer cmp (writesOf (self.allWrites.filter (·.visible))) n := by
  rw [h.visible]
  exact applyToNode_layered hfits

/-- What the part below a path makes of the data there. -/
theorem Synced.child (h : Synced cmp scmp self)
    (hfits : Fits cmp n (writesOf (self.allWrites.filter (·.visible)))) (p : List κ) :
    (self.visibleWrites.childCompoundWriteAtPath cmp scmp p).applyToNode cmp (getChild cmp n p)
      = getChild cmp (layer cmp (writesOf (self.allWrites.filter (·.visible))) n) p := by
  rw [FCompoundWrite.applyToNode_childCompoundWrite h.wf_visibleWrites (h.fits hfits), h.applyToNode hfits]

theorem Synced.complete (h : Synced cmp scmp self)
    (hfits : Fits cmp n (writesOf (self.allWrites.filter (·.visible)))) {p : List κ} {node : FNode κ ν}
    (hnode : self.visibleWrites.completeNodeAtPath cmp scmp p = some node) :
    getChild cmp (layer cmp (writesOf (self.allWrites.filter (·.visible))) n) p = node := by
  rw [← h.applyToNode hfits]
  exact FCompoundWrite.getChild_applyToNode_of_complete h.wf_visibleWrites (h.fits hfits) hnode

/-- **A view with complete data shows the pending writes.** In every run whose
removals are safe, the cache of a view at any path is what is there when the
visible records are performed on the data of the server, one after the other. -/
theorem eventCache_shows_pending {calls : List (WriteCall κ ν)}
    (hsafe : EachStep (step cmp scmp) (SafeCall scmp) initial calls)
    (hrun : run (step cmp scmp) initial calls = some self)
    (hfits : Fits cmp n (writesOf (self.allWrites.filter (·.visible)))) (treePath : List κ) :
    self.calculateCompleteEventCacheAtPath cmp scmp treePath (some (getChild cmp n treePath)) none false
      = some (getChild cmp (layer cmp (writesOf (self.allWrites.filter (·.visible))) n) treePath) := by
  have h : Synced cmp scmp self := synced_of_run hsafe hrun
  have hchild := h.child hfits treePath
  have hbranch : ((none : Option (List ℤ)).isNone && !false) = true := rfl
  unfold calculateCompleteEventCacheAtPath
  rw [if_pos hbranch]
  rcases hcomplete : self.visibleWrites.completeNodeAtPath cmp scmp treePath with _ | node
  · by_cases hempty : (self.visibleWrites.childCompoundWriteAtPath cmp scmp treePath).isEmpty = true
    · -- no write is at the path or below
      rw [applyToNode_of_isEmpty hempty] at hchild
      simp only [hempty, if_true]
      rw [hchild]
    · simp only [hempty, Option.isNone_some, Bool.false_and, Bool.false_eq_true, if_false, Option.getD_some]
      rw [hchild]
  · rw [h.complete hfits hcomplete]

end Views

end Lawful

/-! A path is written twice, and the first write is acknowledged. -/

def one : Name := ⟨unichars "1", by decide⟩

def two : Name := ⟨unichars "2", by decide⟩

def three : Name := ⟨unichars "3", by decide⟩

def writtenTwice : List (WriteCall Name ℕ) :=
  [.overwrite [one] (.leaf 5 none) 0 true, .overwrite [one] (.leaf 6 none) 1 true, .remove 0]

def writtenTwiceTree : FWriteTree Name ℕ where
  visibleWrites := ⟨.node none [(one, .node (some (.leaf 6 none)) [])]⟩
  allWrites := [⟨[one], .overwrite (.leaf 6 none), 1, true⟩]
  lastWriteId := 1

theorem run_writtenTwice : run (step Name.compareKey Name.compareUnits) initial writtenTwice = some writtenTwiceTree := rfl

theorem proper_leaf {κ ν : Type} (value : ν) : Proper (.leaf value none : FNode κ ν) := fun h => nomatch h

/-- The second write shadows the first one. -/
theorem writtenTwice_safe : EachStep (step Name.compareKey Name.compareUnits) (SafeCall Name.compareUnits) initial writtenTwice := by
  refine (eachStep_cons_iff _).mpr ⟨proper_leaf 5, fun s₁ h₁ => ?_⟩
  obtain rfl := Option.some.inj h₁
  refine (eachStep_cons_iff _).mpr ⟨proper_leaf 6, fun s₂ h₂ => ?_⟩
  obtain rfl := Option.some.inj h₂
  refine eachStep_singleton _ fun pre r post hall hid _ _ => ?_
  rcases pre with _ | ⟨a, pre⟩
  · obtain ⟨rfl, rfl⟩ := List.cons.inj hall
    have hshadow : Shadowed [⟨[one], .overwrite (.leaf 6 none), 1, true⟩]
        (⟨[one], .overwrite (.leaf 5 none), 0, true⟩ : FWriteRecord Name ℕ) :=
      ⟨_, List.mem_singleton_self _, rfl, rfl⟩
    exact ⟨fun _ c hc => absurd hc List.not_mem_nil, fun h => absurd hshadow h, fun h => absurd hshadow h⟩
  · -- the other record has the other id
    rcases pre with _ | ⟨b, pre⟩
    · obtain ⟨-, hall⟩ := List.cons.inj hall
      obtain ⟨rfl, -⟩ := List.cons.inj hall
      cases hid
    · obtain ⟨-, hall⟩ := List.cons.inj hall
      obtain ⟨-, hall⟩ := List.cons.inj hall
      cases pre <;> cases hall

/-- A snapshot with a leaf at the path. -/
def serverSnap : FNode Name ℕ := .children none [(one, .leaf 7 none)]

theorem serverSnap_fits : Fits Name.compareKey serverSnap (writesOf (writtenTwiceTree.allWrites.filter (·.visible))) := by
  intro x hx
  obtain rfl := List.mem_singleton.mp hx
  exact ⟨⟨by decide, rfl, List.pairwise_singleton _ _, trivial⟩, proper_leaf 6⟩

theorem eventCache_shows_pending_twice :
    writtenTwiceTree.calculateCompleteEventCacheAtPath Name.compareKey Name.compareUnits [one] (some (.leaf 7 none)) none false
      = some (.leaf 6 none) :=
  eventCache_shows_pending writtenTwice_safe run_writtenTwice serverSnap_fits [one]

section Lawful

variable [Std.TransCmp scmp] [Std.LawfulEqCmp scmp]
variable {self : FWriteTree κ ν}

section Views

variable [Std.TransCmp cmp] [Std.LawfulEqCmp cmp] {n : FNode κ ν}

/-- **After an overwrite by the server** an event shows the pending writes on the
new data, and there is none only where the data of the server is not seen. -/
theorem serverOverwrite_shows_pending {calls : List (WriteCall κ ν)}
    (hsafe : EachStep (step cmp scmp) (SafeCall scmp) initial calls)
    (hrun : run (step cmp scmp) initial calls = some self)
    (hfits : Fits cmp n (writesOf (self.allWrites.filter (·.visible)))) (treePath childPath : List κ)
    (hplain : Plain treePath) (existingEventSnap : Option (FNode κ ν)) :
    ∃ event, self.calculateEventCacheAfterServerOverwriteAtPath cmp scmp treePath childPath existingEventSnap
        (some (getChild cmp n treePath)) = some event ∧
      (∀ node, event = some node →
        node = getChild cmp (layer cmp (writesOf (self.allWrites.filter (·.visible))) n) (treePath ++ childPath)) ∧
      (event = none → ∀ n', Fits cmp n' (writesOf (self.allWrites.filter (·.visible))) →
        getChild cmp (layer cmp (writesOf (self.allWrites.filter (·.visible))) n') (treePath ++ childPath)
          = getChild cmp (layer cmp (writesOf (self.allWrites.filter (·.visible))) n) (treePath ++ childPath)) := by
  have h : Synced cmp scmp self := synced_of_run hsafe hrun
  have hchild := h.child hfits (treePath ++ childPath)
  have hassert : ¬ (existingEventSnap.isNone && (some (getChild cmp n treePath)).isNone) = true := by simp
  unfold calculateEventCacheAfterServerOverwriteAtPath
  rw [if_neg hassert]
  dsimp only
  by_cases hcomplete : self.visibleWrites.hasCompleteWriteAtPath cmp scmp (treePath ++ childPath) = true
  · -- shadowed: every snapshot shows the node that is written there
    rw [if_pos hcomplete]
    obtain ⟨node, hnode⟩ := Option.isSome_iff_exists.mp hcomplete
    refine ⟨none, rfl, fun _ heq => absurd heq (by simp), fun _ n' hfits' => ?_⟩
    rw [h.complete hfits hnode, h.complete hfits' hnode]
  · rw [if_neg hcomplete]
    refine ⟨_, rfl, fun node heq => ?_, fun heq => absurd heq (by simp)⟩
    rw [Option.map_some, Option.some.injEq, ← FNode.getChild_append cmp n hplain] at heq
    rw [← heq, ← hchild]
    split_ifs with hempty
    · rw [applyToNode_of_isEmpty hempty]
    · rfl

end Views

end Lawful

/-- A view of the whole snapshot, which the server has overwritten. -/
theorem serverOverwrite_shows_pending_twice :
    writtenTwiceTree.calculateEventCacheAfterServerOverwriteAtPath Name.compareKey Name.compareUnits [] [] none
      (some serverSnap) = some (some (.children none [(one, .leaf 6 none)])) := by
  obtain ⟨event, hevent, hnode, -⟩ :=
    serverOverwrite_shows_pending writtenTwice_safe run_writtenTwice serverSnap_fits [] [] List.not_mem_nil none
  rcases event with _ | node
  · cases hevent
  · rw [hnode node rfl] at hevent
    exact hevent

section Lawful

variable [Std.TransCmp scmp] [Std.LawfulEqCmp scmp]
variable {post : List (FWriteRecord κ ν)} {self self' : FWriteTree κ ν} {w : FCompoundWrite κ ν} {q : List κ}

/-! ## Removing the oldest write -/

/-- There is a value at a path or above it. -/
def HasOn (scmp : κ → κ → Ordering) (w : FCompoundWrite κ ν) (p : List κ) : Prop :=
  ∃ q u, q <+: p ∧ w.writeTree.valueAtPath scmp q = some u

theorem hasOn_addWrite_self (hw : w.Wf scmp) (p : List κ) (v : FNode κ ν) :
    HasOn scmp (w.addWrite cmp scmp v p) p := by
  rcases FCompoundWrite.exists_value_or_noneOn scmp w p with ⟨p', r, u, rfl, hu⟩ | hnone
  · exact ⟨p', _, List.prefix_append p' r, by rw [FCompoundWrite.valueAtPath_addWrite_below hw hu, if_pos rfl]⟩
  · refine ⟨p, v, List.prefix_refl p, ?_⟩
    rw [FCompoundWrite.valueAtPath_addWrite_of_none hw hnone, if_pos (List.prefix_refl p), if_pos rfl]

theorem HasOn.addWrite (h : HasOn scmp w q) (hw : w.Wf scmp) (p : List κ) (v : FNode κ ν) :
    HasOn scmp (w.addWrite cmp scmp v p) q := by
  obtain ⟨q', u', hq', hu'⟩ := h
  rcases FCompoundWrite.exists_value_or_noneOn scmp w p with ⟨p', r, u, rfl, hu⟩ | hnone
  · by_cases heq : q' = p'
    · exact ⟨q', _, hq', by rw [FCompoundWrite.valueAtPath_addWrite_below hw hu, if_pos heq]⟩
    · exact ⟨q', u', hq', by rw [FCompoundWrite.valueAtPath_addWrite_below hw hu, if_neg heq, hu']⟩
  · by_cases hpre : p <+: q'
    · -- the new write is above the value that is there no more
      refine ⟨p, v, hpre.trans hq', ?_⟩
      rw [FCompoundWrite.valueAtPath_addWrite_of_none hw hnone, if_pos (List.prefix_refl p), if_pos rfl]
    · exact ⟨q', u', hq', by rw [FCompoundWrite.valueAtPath_addWrite_of_none hw hnone, if_neg hpre, hu']⟩

/-- What was written is found at its path or above. -/
theorem hasOn_addWrites {ws : List (List κ × FNode κ ν)} (hw : w.Wf scmp) (hproper : ∀ x ∈ ws, Proper x.2)
    {x : List κ × FNode κ ν} (hx : x ∈ ws) : HasOn scmp (w.addWrites cmp scmp ws) x.1 := by
  -- a value that is there stays there, at its path or above
  have hkept : ∀ {ws : List (List κ × FNode κ ν)} {w : FCompoundWrite κ ν}, w.Wf scmp → (∀ x ∈ ws, Proper x.2) →
      HasOn scmp w x.1 → HasOn scmp (w.addWrites cmp scmp ws) x.1 := by
    intro ws
    induction ws with
    | nil => exact fun _ _ h => h
    | cons y ws ih =>
      intro w hw hproper h
      exact ih (FCompoundWrite.wf_addWrite hw (hproper y List.mem_cons_self) y.1)
        (fun z hz => hproper z (List.mem_cons_of_mem y hz)) (h.addWrite hw y.1 y.2)
  induction ws generalizing w with
  | nil => cases hx
  | cons y ws ih =>
    have hw' : (w.addWrite cmp scmp y.2 y.1).Wf scmp := FCompoundWrite.wf_addWrite hw (hproper y List.mem_cons_self) y.1
    have hrest : ∀ z ∈ ws, Proper z.2 := fun z hz => hproper z (List.mem_cons_of_mem y hz)
    rcases List.mem_cons.mp hx with rfl | hx
    · show HasOn scmp ((w.addWrite cmp scmp x.2 x.1).addWrites cmp scmp ws) x.1
      exact hkept hw' hrest (hasOn_addWrite_self hw x.1 x.2)
    · exact ih hw' hrest hx

/-- **The oldest overwrite**, when every record is visible. Its removal is right if
and only if a later record shadows it, or one begins at its path or below, or none
writes there: a merge that begins above it and writes below it is lost. -/
theorem remove_oldest_iff {calls : List (WriteCall κ ν)} {path : List κ} {node : FNode κ ν} {writeId : ℤ}
    (hsafe : EachStep (step cmp scmp) (SafeCall scmp) initial calls)
    (hrun : run (step cmp scmp) initial calls = some self)
    (hoverwrite : self.allWrites = ⟨path, .overwrite node, writeId, true⟩ :: post)
    (hvisible : ∀ c ∈ post, c.visible = true)
    (hremove : step cmp scmp self (.remove writeId) = some self') :
    self'.visibleWrites = layered cmp scmp post ↔
      (∃ c ∈ post, c.containsPath path = true) ∨ (∃ c ∈ post, path <+: c.path) ∨
        ∀ c ∈ post, ∀ x ∈ c.writes, ¬ path <+: x.1 := by
  have h : Synced cmp scmp self := synced_of_run hsafe hrun
  have hfilter : post.filter (·.visible) = post := List.filter_eq_self.mpr hvisible
  have hwf : ∀ c ∈ post, c.Wf scmp := fun c hc => h.wf c (by rw [hoverwrite]; exact List.mem_cons_of_mem _ hc)
  -- the record is the first one of its id
  have hfirst : ∀ {pre' r' post'}, self.allWrites = pre' ++ r' :: post' → (∀ c ∈ pre', c.writeId ≠ writeId) →
      pre' = [] ∧ r' = ⟨path, .overwrite node, writeId, true⟩ ∧ post' = post := by
    intro pre' r' post' hall hne
    rw [hoverwrite] at hall
    rcases pre' with _ | ⟨a, pre'⟩
    · obtain ⟨rfl, rfl⟩ := List.cons.inj hall
      exact ⟨rfl, rfl, rfl⟩
    · obtain ⟨rfl, -⟩ := List.cons.inj hall
      exact absurd rfl (hne _ List.mem_cons_self)
  have hshadowed : Shadowed post ⟨path, .overwrite node, writeId, true⟩ ↔ ∃ c ∈ post, c.containsPath path = true :=
    ⟨fun ⟨c, hc, _, hpath⟩ => ⟨c, hc, hpath⟩, fun ⟨c, hc, hpath⟩ => ⟨c, hc, hvisible c hc, hpath⟩⟩
  have hoverlapped : Overlapped post ⟨path, .overwrite node, writeId, true⟩ ↔ ∃ c ∈ post, path <+: c.path :=
    ⟨fun ⟨c, hc, _, hpath⟩ => ⟨c, hc, hpath⟩, fun ⟨c, hc, hpath⟩ => ⟨c, hc, hvisible c hc, hpath⟩⟩
  obtain ⟨⟨after, b⟩, hcall, rfl⟩ := Option.map_eq_some_iff.mp hremove
  obtain ⟨pre, r, post', hall, hid, hne, hall', hcases⟩ := removeWriteId_cases hcall
  obtain ⟨rfl, rfl, rfl⟩ := hfirst hall hne
  rw [List.nil_append, hshadowed, hoverlapped] at hcases
  constructor
  · intro hright
    rcases hcases with ⟨hhidden, -⟩ | ⟨-, hshadow, -⟩ | ⟨-, -, hover, -⟩ | ⟨-, hshadow, -, hplace⟩
    · cases hhidden
    · exact Or.inl hshadow
    · exact Or.inr (Or.inl hover)
    · refine Or.inr (Or.inr fun c hc x hx hpath => ?_)
      -- what was written there is found on its path, and everything below the removed path is gone
      obtain ⟨q, u, hq, hu⟩ : HasOn scmp (layered cmp scmp post') x.1 :=
        hasOn_addWrites (FCompoundWrite.wf_emptyWrite scmp) (proper_of_mem_writesOf hwf)
          (List.mem_flatMap.mpr ⟨c, hc, hx⟩)
      have hbelow : ¬ path <+: q := by
        intro hpq
        have hgone := (removeWrites_spec (q := q) [(path, node)] h.wf_visibleWrites).2.1
          ⟨(path, node), List.mem_singleton_self _, hpq⟩
        have hplaced := hright.symm.trans (hplace.trans (removeInPlace_eq _ _))
        rw [hplaced] at hu
        exact absurd (hgone.symm.trans hu) (by simp)
      obtain ⟨y, hy, rfl⟩ := exists_write_of_layered hwf hu
      obtain ⟨c', hc', hy⟩ := List.mem_flatMap.mp hy
      have habove : y.1 <+: path := (List.prefix_or_prefix_of_prefix hq hpath).resolve_right hbelow
      exact hshadow ⟨c', hc', (c'.containsPath_iff path).mpr ⟨y, hy, habove⟩⟩
  · intro hright
    have hremoved : Synced cmp scmp after := by
      refine synced_remove h (fun pre r post' hall _ hne _ => ?_) hcall
      obtain ⟨rfl, rfl, rfl⟩ := hfirst hall hne
      refine ⟨fun _ c hc => absurd hc List.not_mem_nil, fun _ _ => hvisible, fun hshadow hover => ?_⟩
      have hout := (hright.resolve_left (mt hshadowed.mpr hshadow)).resolve_left (mt hoverlapped.mpr hover)
      intro c hc _ x hx y hy
      obtain rfl := List.mem_singleton.mp hy
      refine ⟨fun hpre => hshadow ⟨c, hc, hvisible c hc, ?_⟩, hout c hc x hx⟩
      exact (c.containsPath_iff path).mpr ⟨x, hx, hpre⟩
    rw [hremoved.visible, hall', List.nil_append, hfilter]

end Lawful

/-! A path is written, and then a merge at the root writes below it. -/

def deepMerge : FCompoundWrite Name ℕ := ⟨.node none [(one, .node none [(two, .node (some (.leaf 6 none)) [])])]⟩

def mergedBelow : List (WriteCall Name ℕ) :=
  [.overwrite [one] (.children none [(three, .leaf 5 none)]) 0 true, .merge [] deepMerge 1]

def mergedBelowTree : FWriteTree Name ℕ where
  visibleWrites := ⟨.node none [(one, .node (some (.children none [(two, .leaf 6 none), (three, .leaf 5 none)])) [])]⟩
  allWrites := [⟨[one], .overwrite (.children none [(three, .leaf 5 none)]), 0, true⟩, ⟨[], .merge deepMerge, 1, true⟩]
  lastWriteId := 1

theorem run_mergedBelow : run (step Name.compareKey Name.compareUnits) initial mergedBelow = some mergedBelowTree := rfl

theorem wf_deepMerge : deepMerge.Wf Name.compareUnits := by
  have h : deepMerge =
      FCompoundWrite.emptyWrite.addWrite Name.compareKey Name.compareUnits (.leaf 6 none) [one, two] := rfl
  rw [h]
  exact FCompoundWrite.wf_addWrite (FCompoundWrite.wf_emptyWrite Name.compareUnits) (proper_leaf 6) [one, two]

theorem mergedBelow_safe : EachStep (step Name.compareKey Name.compareUnits) (SafeCall Name.compareUnits) initial mergedBelow := by
  refine (eachStep_cons_iff _).mpr ⟨fun h => (nomatch h), fun s₁ h₁ => ?_⟩
  obtain rfl := Option.some.inj h₁
  exact eachStep_singleton _ wf_deepMerge

/-- The acknowledgement of the first write takes the merge out too. -/
theorem remove_oldest_loses_merge :
    (step Name.compareKey Name.compareUnits mergedBelowTree (.remove 0)).map (·.visibleWrites) ≠
      some (layered Name.compareKey Name.compareUnits [⟨[], .merge deepMerge, 1, true⟩]) := by
  intro h
  obtain ⟨after, hremove, hright⟩ := Option.map_eq_some_iff.mp h
  have hiff := (remove_oldest_iff mergedBelow_safe run_mergedBelow rfl (by decide) hremove).mp hright
  rcases hiff with ⟨c, hc, hshadow⟩ | ⟨c, hc, hover⟩ | hnone
  · obtain rfl := List.mem_singleton.mp hc
    exact absurd hshadow (by decide)
  · obtain rfl := List.mem_singleton.mp hc
    exact absurd hover (by decide)
  · exact hnone _ (List.mem_singleton_self _) ([one, two], .leaf 6 none) (List.mem_singleton_self _) ⟨[two], rfl⟩

end FWriteTree

end TerpBuilder.Sync

/-
`FWriteTree`: the writes of the user that the server has not acknowledged.

The tree keeps the records in the order of the writes, and beside them the
compound write that the visible ones make, so that a snapshot need not be layered
record by record. An add extends it. A removal takes one of three ways: nothing is
done for a record that a later one shadows, the compound write is built again
where a record lies below the removed one, and otherwise what the record wrote is
taken out in place.

A removal changes what is in a region of the paths. The last section compares two
compound writes that differ there only, under the writes that come after.
-/
import TerpBuilder.CompoundWrite
import Mathlib.Data.Int.Notation
import Mathlib.Data.List.Infix

set_option autoImplicit false

namespace TerpBuilder.Sync

open FNode (Open Proper Apart getChild)

/-! ## Records -/

/-- `overwrite` or `merge`; one of the two is nil. -/
inductive WriteData (κ ν : Type) where
  | overwrite (node : FNode κ ν)
  | merge (changedChildren : FCompoundWrite κ ν)

structure FWriteRecord (κ ν : Type) where
  path : List κ
  data : WriteData κ ν
  writeId : ℤ
  visible : Bool

namespace FWriteRecord

variable {κ ν : Type} [DecidableEq κ]

/-- What a record writes, and where. -/
def writes (record : FWriteRecord κ ν) : List (List κ × FNode κ ν) :=
  match record.data with
  | .overwrite node => [(record.path, node)]
  | .merge merge => merge.writes.map fun x => (record.path ++ x.1, x.2)

/-- `record:containsPath:` -/
def containsPath (record : FWriteRecord κ ν) (path : List κ) : Bool :=
  match record.data with
  | .overwrite _ => decide (record.path <+: path)
  | .merge merge => merge.writes.any fun x => decide (record.path ++ x.1 <+: path)

/-- Proper nodes; a merge is a well formed compound write. -/
def Wf (scmp : κ → κ → Ordering) (record : FWriteRecord κ ν) : Prop :=
  match record.data with
  | .overwrite node => Proper node
  | .merge merge => merge.Wf scmp

theorem containsPath_iff (record : FWriteRecord κ ν) (path : List κ) :
    record.containsPath path = true ↔ ∃ x ∈ record.writes, x.1 <+: path := by
  unfold containsPath writes
  rcases record.data with node | merge
  · simp
  · rw [List.any_eq_true]
    constructor
    · rintro ⟨x, hx, hpre⟩
      exact ⟨_, List.mem_map_of_mem hx, of_decide_eq_true hpre⟩
    · rintro ⟨y, hy, hpre⟩
      obtain ⟨x, hx, rfl⟩ := List.mem_map.mp hy
      exact ⟨x, hx, decide_eq_true hpre⟩

omit [DecidableEq κ] in
/-- A record writes at its path or below. -/
theorem prefix_of_mem_writes {record : FWriteRecord κ ν} {x : List κ × FNode κ ν} (hx : x ∈ record.writes) :
    record.path <+: x.1 := by
  unfold writes at hx
  rcases hdata : record.data with node | merge
  · rw [hdata] at hx
    rw [List.mem_singleton.mp hx]
  · rw [hdata] at hx
    obtain ⟨y, -, rfl⟩ := List.mem_map.mp hx
    exact List.prefix_append _ _

omit [DecidableEq κ] in
theorem Wf.proper {scmp : κ → κ → Ordering} [Std.TransCmp scmp] [Std.LawfulEqCmp scmp]
    {record : FWriteRecord κ ν} (h : record.Wf scmp) {x : List κ × FNode κ ν} (hx : x ∈ record.writes) :
    Proper x.2 := by
  unfold Wf at h
  unfold writes at hx
  rcases hdata : record.data with node | merge
  · rw [hdata] at h hx
    rw [List.mem_singleton.mp hx]
    exact h
  · rw [hdata] at h hx
    obtain ⟨y, hy, rfl⟩ := List.mem_map.mp hx
    exact h.proper y.1 y.2 ((FCompoundWrite.mem_writes h).mp hy)

omit [DecidableEq κ] in
/-- The writes of a record are apart from each other. -/
theorem Wf.separate_writes {scmp : κ → κ → Ordering} [Std.TransCmp scmp] [Std.LawfulEqCmp scmp]
    {record : FWriteRecord κ ν} (h : record.Wf scmp) : Separate record.writes := by
  unfold Wf at h
  unfold writes
  rcases hdata : record.data with node | merge
  · exact List.pairwise_singleton _ _
  · rw [hdata] at h
    refine List.pairwise_map.mpr ((FCompoundWrite.separate_writes h).imp fun hab => ?_)
    exact ⟨fun hpre => hab.1 ((List.prefix_append_right_inj _).mp hpre),
      fun hpre => hab.2 ((List.prefix_append_right_inj _).mp hpre)⟩

end FWriteRecord

/-! ## The tree -/

structure FWriteTree (κ ν : Type) where
  visibleWrites : FCompoundWrite κ ν
  allWrites : List (FWriteRecord κ ν)
  lastWriteId : ℤ

namespace FWriteTree

variable {κ ν : Type} [DecidableEq κ] [PriorityKey κ] (cmp scmp : κ → κ → Ordering)

/-- `init` -/
def initial : FWriteTree κ ν := ⟨.emptyWrite, [], -1⟩

/-- "Stacking an older write on top of a newer one" is an assertion. -/
def addOverwriteAtPath (self : FWriteTree κ ν) (path : List κ) (newData : FNode κ ν) (writeId : ℤ) (visible : Bool) :
    Option (FWriteTree κ ν) :=
  if writeId > self.lastWriteId then
    some {
      visibleWrites := if visible then self.visibleWrites.addWrite cmp scmp newData path else self.visibleWrites
      allWrites := self.allWrites ++ [⟨path, .overwrite newData, writeId, visible⟩]
      lastWriteId := writeId }
  else none

def addMergeAtPath (self : FWriteTree κ ν) (path : List κ) (changedChildren : FCompoundWrite κ ν) (writeId : ℤ) :
    Option (FWriteTree κ ν) :=
  if writeId > self.lastWriteId then
    some {
      visibleWrites := self.visibleWrites.addCompoundWrite cmp scmp changedChildren path
      allWrites := self.allWrites ++ [⟨path, .merge changedChildren, writeId, true⟩]
      lastWriteId := writeId }
  else none

/-- One record of `layerTreeFromWrites`. -/
def layerRecord (treeRoot : List κ) (compoundWrite : FCompoundWrite κ ν) (record : FWriteRecord κ ν) :
    FCompoundWrite κ ν :=
  let writePath := record.path
  match record.data with
  | .overwrite overwrite =>
    if treeRoot <+: writePath then
      compoundWrite.addWrite cmp scmp overwrite (relativePathFrom treeRoot writePath)
    else if writePath <+: treeRoot then
      compoundWrite.addWrite cmp scmp (getChild cmp overwrite (relativePathFrom writePath treeRoot)) []
    else compoundWrite
  | .merge merge =>
    if treeRoot <+: writePath then
      compoundWrite.addCompoundWrite cmp scmp merge (relativePathFrom treeRoot writePath)
    else if writePath <+: treeRoot then
      let relativePath := relativePathFrom writePath treeRoot
      if relativePath.isEmpty then compoundWrite.addCompoundWrite cmp scmp merge []
      else match merge.completeNodeAtPath cmp scmp relativePath with
        -- the child at the relative path, and then down that path again without its front
        | some child => compoundWrite.addWrite cmp scmp (getChild cmp child relativePath.tail) []
        | none => compoundWrite
    else compoundWrite

def layerTreeFromWrites (writes : List (FWriteRecord κ ν)) (filter : FWriteRecord κ ν → Bool) (treeRoot : List κ) :
    FCompoundWrite κ ν :=
  writes.foldl (fun compoundWrite record =>
    if filter record then layerRecord cmp scmp treeRoot compoundWrite record else compoundWrite) .emptyWrite

/-- "Keep everything that's visible", says its comment. -/
def defaultFilter (_record : FWriteRecord κ ν) : Bool := true

def resetTree (self : FWriteTree κ ν) : FWriteTree κ ν where
  visibleWrites := layerTreeFromWrites cmp scmp self.allWrites defaultFilter []
  allWrites := self.allWrites
  lastWriteId := (self.allWrites.getLast?.map (·.writeId)).getD (-1)

/-- The loop of `removeWriteId:` from the last record down: whether the removed
write is still visible, and whether it overlaps with another one. -/
def removalLoop (writeToRemove : FWriteRecord κ ν) (index : ℕ) (overlaps : Bool) :
    List (FWriteRecord κ ν × ℕ) → Bool × Bool
  | [] => (true, overlaps)
  | (currentWrite, i) :: rest =>
    if currentWrite.visible then
      if i ≥ index ∧ currentWrite.containsPath writeToRemove.path then (false, overlaps)
      else if writeToRemove.path <+: currentWrite.path then removalLoop writeToRemove index true rest
      else removalLoop writeToRemove index overlaps rest
    else removalLoop writeToRemove index overlaps rest

/-- What the removed write wrote is taken out. -/
def removeInPlace (visibleWrites : FCompoundWrite κ ν) (writeToRemove : FWriteRecord κ ν) : FCompoundWrite κ ν :=
  match writeToRemove.data with
  | .overwrite _ => visibleWrites.removeWriteAtPath scmp writeToRemove.path
  | .merge merge =>
    merge.writes.foldl (fun visibleWrites x => visibleWrites.removeWriteAtPath scmp (writeToRemove.path ++ x.1))
      visibleWrites

/-- The tree afterwards, and whether the write may have been visible. A write id
that is not there is an assertion. -/
def removeWriteId (self : FWriteTree κ ν) (writeId : ℤ) : Option (FWriteTree κ ν × Bool) := do
  let index ← self.allWrites.findIdx? fun record => record.writeId = writeId
  let writeToRemove ← self.allWrites[index]?
  let allWrites := self.allWrites.eraseIdx index
  let (visible, overlaps) :=
    if writeToRemove.visible then removalLoop writeToRemove index false allWrites.zipIdx.reverse else (false, false)
  if !visible then return ({ self with allWrites }, false)
  else if overlaps then return (resetTree cmp scmp { self with allWrites }, true)
  else return ({ self with allWrites, visibleWrites := removeInPlace scmp self.visibleWrites writeToRemove }, true)

def removeAllWrites (self : FWriteTree κ ν) : FWriteTree κ ν × List (FWriteRecord κ ν) :=
  ({ self with visibleWrites := .emptyWrite, allWrites := [] }, self.allWrites)

/-! ## Calls -/

inductive WriteCall (κ ν : Type) where
  | overwrite (path : List κ) (newData : FNode κ ν) (writeId : ℤ) (visible : Bool)
  | merge (path : List κ) (changedChildren : FCompoundWrite κ ν) (writeId : ℤ)
  | remove (writeId : ℤ)
  | removeAll

def step (self : FWriteTree κ ν) : WriteCall κ ν → Option (FWriteTree κ ν)
  | .overwrite path newData writeId visible => self.addOverwriteAtPath cmp scmp path newData writeId visible
  | .merge path changedChildren writeId => self.addMergeAtPath cmp scmp path changedChildren writeId
  | .remove writeId => (self.removeWriteId cmp scmp writeId).map Prod.fst
  | .removeAll => some self.removeAllWrites.1

/-! ## Layering -/

/-- The writes of some records, in order. -/
def writesOf (records : List (FWriteRecord κ ν)) : List (List κ × FNode κ ν) := records.flatMap FWriteRecord.writes

omit [DecidableEq κ] [PriorityKey κ] in
theorem writesOf_append (a b : List (FWriteRecord κ ν)) : writesOf (a ++ b) = writesOf a ++ writesOf b :=
  List.flatMap_append

omit [DecidableEq κ] [PriorityKey κ] in
theorem writesOf_cons (r : FWriteRecord κ ν) (rs : List (FWriteRecord κ ν)) :
    writesOf (r :: rs) = r.writes ++ writesOf rs := List.flatMap_cons

/-- What the records make of the empty write, layered from the root. -/
def layered (records : List (FWriteRecord κ ν)) : FCompoundWrite κ ν :=
  FCompoundWrite.addWrites cmp scmp .emptyWrite (writesOf records)

variable {cmp scmp}

theorem layerRecord_root (compoundWrite : FCompoundWrite κ ν) (record : FWriteRecord κ ν) :
    layerRecord cmp scmp [] compoundWrite record = compoundWrite.addWrites cmp scmp record.writes := by
  unfold layerRecord FWriteRecord.writes
  have hrel : relativePathFrom [] record.path = record.path := rfl
  rcases record.data with node | merge
  · simp only [List.nil_prefix, if_true, hrel]
    rfl
  · simp only [List.nil_prefix, if_true, hrel]
    exact FCompoundWrite.addCompoundWrite_eq _ _ _

/-- **Layering at the root** is performing the writes of the records that pass. -/
theorem layerTreeFromWrites_root (records : List (FWriteRecord κ ν)) (filter : FWriteRecord κ ν → Bool) :
    layerTreeFromWrites cmp scmp records filter [] = layered cmp scmp (records.filter filter) := by
  unfold layerTreeFromWrites layered
  generalize FCompoundWrite.emptyWrite = w
  induction records generalizing w with
  | nil => rfl
  | cons r rs ih =>
    rw [List.foldl_cons, ih, List.filter_cons]
    split_ifs
    · rw [writesOf_cons, FCompoundWrite.addWrites_append, layerRecord_root]
    · rfl

section Lawful

variable [Std.TransCmp scmp] [Std.LawfulEqCmp scmp]
variable {records : List (FWriteRecord κ ν)} {w w' : FCompoundWrite κ ν} {p q : List κ} {v u : FNode κ ν}

theorem wf_layered (h : ∀ r ∈ records, r.Wf scmp) : (layered cmp scmp records).Wf scmp := by
  refine FCompoundWrite.wf_addWrites (FCompoundWrite.wf_emptyWrite scmp) fun x hx => ?_
  obtain ⟨r, hr, hx⟩ := List.mem_flatMap.mp hx
  exact (h r hr).proper hx

/-- A value of a compound write was written there. -/
theorem exists_write_of_value {ws : List (List κ × FNode κ ν)} (hw : w.Wf scmp) (hws : ∀ x ∈ ws, Proper x.2)
    (h : (w.addWrites cmp scmp ws).writeTree.valueAtPath scmp q = some u) :
    (∃ x ∈ ws, x.1 = q) ∨ ∃ u', w.writeTree.valueAtPath scmp q = some u' := by
  induction ws generalizing w with
  | nil => exact Or.inr ⟨u, h⟩
  | cons x ws ih =>
    have hx := hws x List.mem_cons_self
    rcases ih (FCompoundWrite.wf_addWrite hw hx x.1) (fun y hy => hws y (List.mem_cons_of_mem x hy)) h with
      ⟨y, hy, hyq⟩ | ⟨u', hu'⟩
    · exact Or.inl ⟨y, List.mem_cons_of_mem x hy, hyq⟩
    · rcases FCompoundWrite.exists_value_or_noneOn scmp w x.1 with ⟨p, r, u, hp, hu⟩ | hnone
      · rw [hp, FCompoundWrite.valueAtPath_addWrite_below hw hu] at hu'
        split_ifs at hu' with hqp
        · exact Or.inr ⟨u, hqp ▸ hu⟩
        · exact Or.inr ⟨u', hu'⟩
      · rw [FCompoundWrite.valueAtPath_addWrite_of_none hw hnone] at hu'
        split_ifs at hu' with hpre hqp
        · exact Or.inl ⟨x, List.mem_cons_self, hqp.symm⟩
        · exact Or.inr ⟨u', hu'⟩

theorem exists_write_of_layered (h : ∀ r ∈ records, r.Wf scmp)
    (hq : (layered cmp scmp records).writeTree.valueAtPath scmp q = some u) : ∃ x ∈ writesOf records, x.1 = q := by
  have hproper : ∀ x ∈ writesOf records, Proper x.2 := by
    intro x hx
    obtain ⟨r, hr, hx⟩ := List.mem_flatMap.mp hx
    exact (h r hr).proper hx
  rcases exists_write_of_value (FCompoundWrite.wf_emptyWrite scmp) hproper hq with hx | ⟨u', hu'⟩
  · exact hx
  · have hnone := FImmutableTree.valueAtPath_empty (α := FNode κ ν) scmp q
    exact absurd (hnone.symm.trans hu') (by simp)

/-! ## Two compound writes that differ in a region -/

/-- A region is a set of paths that holds what is below each of them. The values
outside of it are the same, and none of them is above a path of it. -/
structure AgreeOutside (scmp : κ → κ → Ordering) (D : List κ → Prop) (w w' : FCompoundWrite κ ν) : Prop where
  same : ∀ q, ¬ D q → w.writeTree.valueAtPath scmp q = w'.writeTree.valueAtPath scmp q
  clear : ∀ q u, w.writeTree.valueAtPath scmp q = some u → ¬ D q → ∀ y, D y → ¬ q <+: y

omit [DecidableEq κ] [PriorityKey κ] [Std.TransCmp scmp] [Std.LawfulEqCmp scmp] in
theorem AgreeOutside.symm {D : List κ → Prop} (h : AgreeOutside scmp D w w') : AgreeOutside scmp D w' w where
  same q hq := (h.same q hq).symm
  clear q u hu hq := h.clear q u ((h.same q hq).trans hu) hq

variable {D : List κ → Prop}

/-- A write in the region is not seen outside. -/
theorem AgreeOutside.addWrite_left (hD : ∀ p q, D p → p <+: q → D q) (hw : w.Wf scmp) (h : AgreeOutside scmp D w w')
    (hp : D p) (v : FNode κ ν) : AgreeOutside scmp D (w.addWrite cmp scmp v p) w' := by
  have hout : ∀ q, ¬ D q → (w.addWrite cmp scmp v p).writeTree.valueAtPath scmp q = w.writeTree.valueAtPath scmp q := by
    intro q hq
    rcases FCompoundWrite.exists_value_or_noneOn scmp w p with ⟨p', r, u, rfl, hu⟩ | hnone
    · -- a value above the region there is none, so the write goes into a node of the region
      have hp' : D p' := by
        by_contra hp'
        exact h.clear p' u hu hp' _ hp (List.prefix_append p' r)
      rw [FCompoundWrite.valueAtPath_addWrite_below hw hu, if_neg fun heq => hq (by rw [heq]; exact hp')]
    · rw [FCompoundWrite.valueAtPath_addWrite_of_none hw hnone, if_neg fun hpre => hq (hD p q hp hpre)]
  refine ⟨fun q hq => (hout q hq).trans (h.same q hq), fun q u hu hq => ?_⟩
  exact h.clear q u ((hout q hq).symm.trans hu) hq

/-- A write apart from the region leaves the difference as it is. -/
theorem AgreeOutside.addWrite_both (hD : ∀ p q, D p → p <+: q → D q) (hw : w.Wf scmp) (hw' : w'.Wf scmp)
    (h : AgreeOutside scmp D w w') (hp : ¬ D p) (habove : ∀ y, D y → ¬ p <+: y) (v : FNode κ ν) :
    AgreeOutside scmp D (w.addWrite cmp scmp v p) (w'.addWrite cmp scmp v p) := by
  -- what is above the path is outside of the region too
  have hon : ∀ q, q <+: p → ¬ D q := fun q hq hDq => hp (hD q p hDq hq)
  rcases FCompoundWrite.exists_value_or_noneOn scmp w p with ⟨p', r, u, rfl, hu⟩ | hnone
  · have hp' := hon p' (List.prefix_append p' r)
    have hu' := (h.same p' hp').symm.trans hu
    refine ⟨fun q hq => ?_, fun q x hx hq => ?_⟩
    · rw [FCompoundWrite.valueAtPath_addWrite_below hw hu, FCompoundWrite.valueAtPath_addWrite_below hw' hu', h.same q hq]
    · rw [FCompoundWrite.valueAtPath_addWrite_below hw hu] at hx
      split_ifs at hx with heq
      · exact heq ▸ h.clear p' u hu hp'
      · exact h.clear q x hx hq
  · have hnone' : FCompoundWrite.NoneOn scmp w' p := fun q hq => (h.same q (hon q hq)).symm.trans (hnone q hq)
    refine ⟨fun q hq => ?_, fun q x hx hq => ?_⟩
    · rw [FCompoundWrite.valueAtPath_addWrite_of_none hw hnone, FCompoundWrite.valueAtPath_addWrite_of_none hw' hnone',
        h.same q hq]
    · rw [FCompoundWrite.valueAtPath_addWrite_of_none hw hnone] at hx
      split_ifs at hx with hpre heq
      · exact heq ▸ habove
      · exact h.clear q x hx hq

/-- After a write that shadows the region there is no difference. -/
theorem AgreeOutside.addWrite_eq {P : List κ} (hw : w.Wf scmp) (hw' : w'.Wf scmp)
    (h : AgreeOutside scmp (P <+: ·) w w') (hp : p <+: P) (hv : Proper v) :
    w.addWrite cmp scmp v p = w'.addWrite cmp scmp v p := by
  -- either way the node is what is at the path, and nothing is below it
  have hvalue : ∀ {w w' : FCompoundWrite κ ν}, w.Wf scmp → AgreeOutside scmp (P <+: ·) w w' → ∀ q,
      (w.addWrite cmp scmp v p).writeTree.valueAtPath scmp q
        = if p <+: q then (if q = p then some v else none) else w.writeTree.valueAtPath scmp q := by
    intro w w' hw h q
    rcases FCompoundWrite.exists_value_or_noneOn scmp w p with ⟨p', r, u, rfl, hu⟩ | hnone
    · have hp' : P <+: p' := by
        by_contra hp'
        exact h.clear p' u hu hp' P (List.prefix_refl P) ((List.prefix_append p' r).trans hp)
      have hr : p' ++ r = p' := by
        have hlen := (hp.trans hp').length_le
        rw [List.length_append] at hlen
        rw [List.eq_nil_of_length_eq_zero (by omega : r.length = 0), List.append_nil]
      rw [FCompoundWrite.valueAtPath_addWrite_below hw hu, hr]
      have hrnil : r = [] := List.append_cancel_left (hr.trans (List.append_nil p').symm)
      rw [hrnil]
      by_cases hpre : p' <+: q
      · rw [if_pos hpre]
        split_ifs with heq
        · rfl
        · obtain ⟨s, rfl⟩ := hpre
          rcases hx : w.writeTree.valueAtPath scmp (p' ++ s) with _ | x
          · rfl
          · rw [hw.tree.eq_nil_of_below hu hx, List.append_nil] at heq
            exact absurd rfl heq
      · rw [if_neg hpre, if_neg fun heq => hpre (by rw [heq])]
    · exact FCompoundWrite.valueAtPath_addWrite_of_none hw hnone v q
  refine FCompoundWrite.ext_of_values (FCompoundWrite.wf_addWrite hw hv p) (FCompoundWrite.wf_addWrite hw' hv p) fun q => ?_
  rw [hvalue hw h, hvalue hw' h.symm]
  split_ifs with hpre
  · rfl
  · rfl
  · exact h.same q fun hPq => hpre (hp.trans hPq)

omit [DecidableEq κ] [PriorityKey κ] [Std.TransCmp scmp] [Std.LawfulEqCmp scmp] in
/-- No difference, and nothing above the region. -/
theorem AgreeOutside.refl (h : ∀ q u, w.writeTree.valueAtPath scmp q = some u → ¬ D q → ∀ y, D y → ¬ q <+: y) :
    AgreeOutside scmp D w w where
  same _ _ := rfl
  clear := h

/-- Writes in the region are not seen outside. -/
theorem AgreeOutside.addWrites_left {ws : List (List κ × FNode κ ν)} (hD : ∀ p q, D p → p <+: q → D q)
    (hw : w.Wf scmp) (h : AgreeOutside scmp D w w') (hin : ∀ x ∈ ws, D x.1 ∧ Proper x.2) :
    AgreeOutside scmp D (w.addWrites cmp scmp ws) w' := by
  induction ws generalizing w with
  | nil => exact h
  | cons x ws ih =>
    obtain ⟨hx, hproper⟩ := hin x List.mem_cons_self
    exact ih (FCompoundWrite.wf_addWrite hw hproper x.1) (h.addWrite_left hD hw hx x.2)
      fun y hy => hin y (List.mem_cons_of_mem x hy)

/-- Writes apart from the region leave the difference as it is. -/
theorem AgreeOutside.addWrites_both {ws : List (List κ × FNode κ ν)} (hD : ∀ p q, D p → p <+: q → D q)
    (hw : w.Wf scmp) (hw' : w'.Wf scmp) (h : AgreeOutside scmp D w w') (hproper : ∀ x ∈ ws, Proper x.2)
    (hout : ∀ x ∈ ws, ¬ D x.1 ∧ ∀ y, D y → ¬ x.1 <+: y) :
    AgreeOutside scmp D (w.addWrites cmp scmp ws) (w'.addWrites cmp scmp ws) := by
  induction ws generalizing w w' with
  | nil => exact h
  | cons x ws ih =>
    obtain ⟨hx, habove⟩ := hout x List.mem_cons_self
    have hv := hproper x List.mem_cons_self
    exact ih (FCompoundWrite.wf_addWrite hw hv x.1) (FCompoundWrite.wf_addWrite hw' hv x.1)
      (h.addWrite_both hD hw hw' hx habove x.2) (fun y hy => hproper y (List.mem_cons_of_mem x hy))
      fun y hy => hout y (List.mem_cons_of_mem x hy)

omit [DecidableEq κ] [PriorityKey κ] in
/-- A path that is apart from another one is above nothing that is below it. -/
theorem not_prefix_of_apart {P y : List κ} (hp : ¬ p <+: P) (hP : ¬ P <+: p) (hy : P <+: y) : ¬ p <+: y := by
  intro hpy
  rcases List.prefix_or_prefix_of_prefix hpy hy with h | h
  · exact hp h
  · exact hP h

/-- **A shadow.** Once a path is written that is above the region, what was written
in the region before makes no difference. -/
theorem AgreeOutside.addWrites_eq {P : List κ} {ws : List (List κ × FNode κ ν)} (hw : w.Wf scmp) (hw' : w'.Wf scmp)
    (h : AgreeOutside scmp (P <+: ·) w w') (hproper : ∀ x ∈ ws, Proper x.2) (hshadow : ∃ x ∈ ws, x.1 <+: P) :
    w.addWrites cmp scmp ws = w'.addWrites cmp scmp ws := by
  have hD : ∀ p q, P <+: p → p <+: q → P <+: q := fun p q => List.IsPrefix.trans
  induction ws generalizing w w' with
  | nil =>
    obtain ⟨x, hx, -⟩ := hshadow
    cases hx
  | cons x ws ih =>
    have hv := hproper x List.mem_cons_self
    have hrest : ∀ y ∈ ws, Proper y.2 := fun y hy => hproper y (List.mem_cons_of_mem x hy)
    by_cases hx : x.1 <+: P
    · -- the first write above the region
      exact congrArg (fun w => FCompoundWrite.addWrites cmp scmp w ws) (h.addWrite_eq hw hw' hx hv)
    · have hshadow' : ∃ y ∈ ws, y.1 <+: P := by
        obtain ⟨y, hy, hyP⟩ := hshadow
        rcases List.mem_cons.mp hy with rfl | hy
        · exact absurd hyP hx
        · exact ⟨y, hy, hyP⟩
      refine ih (FCompoundWrite.wf_addWrite hw hv x.1) (FCompoundWrite.wf_addWrite hw' hv x.1) ?_ hrest hshadow'
      by_cases hin : P <+: x.1
      · have hleft : AgreeOutside scmp (P <+: ·) (w.addWrite cmp scmp x.2 x.1) w' := h.addWrite_left hD hw hin x.2
        exact (hleft.symm.addWrite_left hD hw' hin x.2).symm
      · exact h.addWrite_both hD hw hw' hin (fun y hy => not_prefix_of_apart hx hin hy) x.2

end Lawful

end FWriteTree

end TerpBuilder.Sync

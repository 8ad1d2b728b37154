/-
What a transaction is told: the pending writes with some left out.

The cache of a transaction is not read from the compound write of the tree. The
records that count are layered again, from the path of the transaction down: a
write above it gives what it has there, and one apart from it is passed over. That
is the part below the path of what all the records that count give. An overwrite
may begin anywhere. A merge that begins above the path is only looked up on the
way, so what it writes below is lost, and what it writes at the path or above is
right where it begins one key above.
-/
import TerpBuilder.PendingWrites

set_option autoImplicit false

namespace TerpBuilder.Sync

open FUtilities (Name)
open FNode (Open Proper Plain Apart Ordered getChild updateChild emptyNode)

/-! ## The part below a path -/

namespace FCompoundWrite

variable {κ ν : Type} [DecidableEq κ] [PriorityKey κ] {cmp scmp : κ → κ → Ordering}
variable [Std.TransCmp scmp] [Std.LawfulEqCmp scmp]
variable {w : FCompoundWrite κ ν} {p q r s root : List κ} {u v : FNode κ ν}

/-- The nodes that are written are in order. -/
def InOrder (cmp scmp : κ → κ → Ordering) (w : FCompoundWrite κ ν) : Prop :=
  ∀ p v, w.writeTree.valueAtPath scmp p = some v → Ordered cmp v

theorem child_of_value (h : Wf scmp w) (hu : w.writeTree.valueAtPath scmp q = some u) (r : List κ) :
    w.childCompoundWriteAtPath cmp scmp (q ++ r) = ⟨.withValue (some (getChild cmp u r))⟩ := by
  unfold childCompoundWriteAtPath
  by_cases hempty : (q ++ r).isEmpty = true
  · -- the whole write is one node
    obtain ⟨rfl, rfl⟩ := List.append_eq_nil_iff.mp (List.isEmpty_iff.mp hempty)
    rw [if_pos hempty, FNode.getChild]
    refine ext_of_values h (wf_withValue scmp (h.proper _ _ hu)) fun q => ?_
    rw [valueAtPath_withValue]
    rcases q with _ | ⟨k, q⟩
    · exact hu
    · rcases hv : w.writeTree.valueAtPath scmp (k :: q) with _ | v
      · rfl
      · exact absurd (h.tree.eq_nil_of_below (q := k :: q) hu hv) (List.cons_ne_nil k q)
  · rw [if_neg hempty, completeNodeAtPath_of_value h hu]

omit [Std.TransCmp scmp] [Std.LawfulEqCmp scmp] in
theorem child_of_noneOn (h : NoneOn scmp w root) :
    w.childCompoundWriteAtPath cmp scmp root = ⟨w.writeTree.subtreeAtPath scmp root⟩ := by
  unfold childCompoundWriteAtPath
  split_ifs with hempty
  · obtain rfl := List.isEmpty_iff.mp hempty
    rfl
  · rw [completeNodeAtPath_eq_none_iff.mpr h]

omit [Std.TransCmp scmp] [Std.LawfulEqCmp scmp] in
theorem addWrite_withValue (u v : FNode κ ν) (s : List κ) :
    addWrite cmp scmp ⟨.withValue (some u)⟩ v s = ⟨.withValue (some (updateChild cmp u s v))⟩ := by
  rcases s with _ | ⟨k, s⟩
  · rw [FNode.updateChild]
    rfl
  · rfl

variable [Std.TransCmp cmp] [Std.LawfulEqCmp cmp]

theorem inOrder_addWrite (h : Wf scmp w) (ho : InOrder cmp scmp w) (hv : Ordered cmp v) (p : List κ) :
    InOrder cmp scmp (w.addWrite cmp scmp v p) := by
  intro q x hx
  rcases exists_value_or_noneOn scmp w p with ⟨p', r, u, rfl, hu⟩ | hnone
  · rw [valueAtPath_addWrite_below h hu] at hx
    split_ifs at hx
    · exact Option.some.inj hx ▸ (ho p' u hu).updateChild hv r
    · exact ho q x hx
  · rw [valueAtPath_addWrite_of_none h hnone] at hx
    split_ifs at hx
    · exact Option.some.inj hx ▸ hv
    · exact ho q x hx

/-- A write at the path or below is a write to the part. -/
theorem child_addWrite_below (h : Wf scmp w) (ho : InOrder cmp scmp w) (hv : Proper v) (hroot : Plain root)
    (s : List κ) :
    (w.addWrite cmp scmp v (root ++ s)).childCompoundWriteAtPath cmp scmp root
      = (w.childCompoundWriteAtPath cmp scmp root).addWrite cmp scmp v s := by
  have h' : Wf scmp (w.addWrite cmp scmp v (root ++ s)) := wf_addWrite h hv (root ++ s)
  rcases exists_value_or_noneOn scmp w root with ⟨q, r, u, rfl, hu⟩ | hnone
  · have hu' : (w.addWrite cmp scmp v (q ++ r ++ s)).writeTree.valueAtPath scmp q
        = some (updateChild cmp u (r ++ s) v) := by
      rw [List.append_assoc, valueAtPath_addWrite_below h hu, if_pos rfl]
    rw [child_of_value h' hu', child_of_value h hu, addWrite_withValue,
      (ho q u hu).getChild_updateChild_below hv (FNode.plain_append_iff.mp hroot).2]
  · rw [child_of_noneOn hnone]
    have hsub : Wf scmp (⟨w.writeTree.subtreeAtPath scmp root⟩ : FCompoundWrite κ ν) := wf_subtreeAtPath h root
    rcases s with _ | ⟨k, s⟩
    · -- the write is at the path
      have hnone' : NoneOn scmp w (root ++ []) := (List.append_nil root).symm ▸ hnone
      have hv' : (w.addWrite cmp scmp v (root ++ [])).writeTree.valueAtPath scmp root = some v := by
        rw [valueAtPath_addWrite_of_none h hnone', List.append_nil, if_pos (List.prefix_refl root), if_pos rfl]
      have hchild : (w.addWrite cmp scmp v (root ++ [])).childCompoundWriteAtPath cmp scmp (root ++ []) = _ :=
        child_of_value h' hv' []
      rw [List.append_nil] at hchild ⊢
      rw [hchild, FNode.getChild]
      rfl
    · have hon : NoneOn scmp (w.addWrite cmp scmp v (root ++ k :: s)) root := by
        intro q hq
        rcases exists_value_or_noneOn scmp w (root ++ k :: s) with ⟨p', r, u, hp, hu⟩ | hnone'
        · rw [hp, valueAtPath_addWrite_below h hu, if_neg ?_, hnone q hq]
          rintro rfl
          exact absurd ((hnone q hq).symm.trans hu) (by simp)
        · rw [valueAtPath_addWrite_of_none h hnone', if_neg ?_, hnone q hq]
          intro hpre
          have hlen := (hpre.trans hq).length_le
          rw [List.length_append, List.length_cons] at hlen
          omega
      rw [child_of_noneOn hon]
      refine ext_of_values (wf_subtreeAtPath h' root) (wf_addWrite hsub hv (k :: s)) fun q => ?_
      rw [FImmutableTree.valueAtPath_subtreeAtPath]
      rcases exists_value_or_noneOn scmp ⟨w.writeTree.subtreeAtPath scmp root⟩ (k :: s) with
        ⟨p', r, u, hp, hu⟩ | hnone'
      · rw [hp, valueAtPath_addWrite_below hsub hu, FImmutableTree.valueAtPath_subtreeAtPath]
        rw [FImmutableTree.valueAtPath_subtreeAtPath] at hu
        rw [← List.append_assoc, valueAtPath_addWrite_below h hu]
        simp only [List.append_cancel_left_eq]
      · have hnone'' : NoneOn scmp w (root ++ k :: s) := by
          intro q hq
          rcases List.prefix_or_prefix_of_prefix hq (List.prefix_append root (k :: s)) with hqr | ⟨t, rfl⟩
          · exact hnone q hqr
          · have ht := hnone' t ((List.prefix_append_right_inj root).mp hq)
            rwa [FImmutableTree.valueAtPath_subtreeAtPath] at ht
        rw [valueAtPath_addWrite_of_none hsub hnone', valueAtPath_addWrite_of_none h hnone'',
          FImmutableTree.valueAtPath_subtreeAtPath]
        simp only [List.prefix_append_right_inj, List.append_cancel_left_eq]

/-- A write above the path gives what it has there. -/
theorem child_addWrite_above (h : Wf scmp w) (ho : InOrder cmp scmp w) (hv : Proper v) (hp : Plain p) (s : List κ) :
    (w.addWrite cmp scmp v p).childCompoundWriteAtPath cmp scmp (p ++ s)
      = ⟨.withValue (some (getChild cmp v s))⟩ := by
  have h' : Wf scmp (w.addWrite cmp scmp v p) := wf_addWrite h hv p
  rcases exists_value_or_noneOn scmp w p with ⟨q, r, u, rfl, hu⟩ | hnone
  · have hu' : (w.addWrite cmp scmp v (q ++ r)).writeTree.valueAtPath scmp q = some (updateChild cmp u r v) := by
      rw [valueAtPath_addWrite_below h hu, if_pos rfl]
    have hr : Plain r := (FNode.plain_append_iff.mp hp).2
    have hread := (ho q u hu).getChild_updateChild_below hv hr []
    rw [List.append_nil, FNode.updateChild] at hread
    rw [List.append_assoc, ← List.append_assoc q r s, List.append_assoc, child_of_value h' hu',
      FNode.getChild_append cmp _ hr, hread]
  · have hv' : (w.addWrite cmp scmp v p).writeTree.valueAtPath scmp p = some v := by
      rw [valueAtPath_addWrite_of_none h hnone, if_pos (List.prefix_refl p), if_pos rfl]
    exact child_of_value h' hv' s

/-- A write apart from the path does not change the part. -/
theorem child_addWrite_of_apart (h : Wf scmp w) (ho : InOrder cmp scmp w) (hv : Proper v) (hp : Plain p)
    (hroot : Plain root) (ha : Apart p root) :
    (w.addWrite cmp scmp v p).childCompoundWriteAtPath cmp scmp root = w.childCompoundWriteAtPath cmp scmp root := by
  have h' : Wf scmp (w.addWrite cmp scmp v p) := wf_addWrite h hv p
  -- away from what the write is in nothing changes
  have hsame : ∀ q, (∀ u, w.writeTree.valueAtPath scmp q = some u → ¬ q <+: p) → ¬ p <+: q →
      (w.addWrite cmp scmp v p).writeTree.valueAtPath scmp q = w.writeTree.valueAtPath scmp q := by
    intro q hq hpq
    rcases exists_value_or_noneOn scmp w p with ⟨p', r, u, rfl, hu⟩ | hnone
    · rw [valueAtPath_addWrite_below h hu, if_neg]
      rintro rfl
      exact hq u hu (List.prefix_append q r)
    · rw [valueAtPath_addWrite_of_none h hnone, if_neg hpq]
  rcases exists_value_or_noneOn scmp w root with ⟨q, r, u, rfl, hu⟩ | hnone
  · by_cases hqp : q <+: p
    · -- the write goes into the node that the path is in, and elsewhere
      obtain ⟨r', rfl⟩ := hqp
      have hu' : (w.addWrite cmp scmp v (q ++ r')).writeTree.valueAtPath scmp q = some (updateChild cmp u r' v) := by
        rw [valueAtPath_addWrite_below h hu, if_pos rfl]
      have ha' : Apart r' r := ⟨fun hpre => ha.1 ((List.prefix_append_right_inj q).mpr hpre),
        fun hpre => ha.2 ((List.prefix_append_right_inj q).mpr hpre)⟩
      rw [child_of_value h' hu', child_of_value h hu, (ho q u hu).getChild_updateChild_of_apart hv
        (FNode.plain_append_iff.mp hp).2 (FNode.plain_append_iff.mp hroot).2 ha']
    · have hu' := (hsame q (fun _ _ => hqp) fun hpq => ha.1 (hpq.trans (List.prefix_append q r))).trans hu
      rw [child_of_value h' hu', child_of_value h hu]
  · have hon : NoneOn scmp (w.addWrite cmp scmp v p) root := by
      intro q hq
      rw [hsame q (fun u hu => absurd ((hnone q hq).symm.trans hu) (by simp)) fun hpq => ha.1 (hpq.trans hq)]
      exact hnone q hq
    rw [child_of_noneOn hon, child_of_noneOn hnone]
    refine ext_of_values (wf_subtreeAtPath h' root) (wf_subtreeAtPath h root) fun q => ?_
    rw [FImmutableTree.valueAtPath_subtreeAtPath, FImmutableTree.valueAtPath_subtreeAtPath]
    refine hsame _ (fun _ _ hq => ha.2 ((List.prefix_append root q).trans hq)) fun hpq => ?_
    rcases List.prefix_or_prefix_of_prefix hpq (List.prefix_append root q) with hpre | hpre
    · exact ha.1 hpre
    · exact ha.2 hpre

omit [DecidableEq κ] [PriorityKey κ] [Std.TransCmp scmp] [Std.LawfulEqCmp scmp] [Std.TransCmp cmp] [Std.LawfulEqCmp cmp] in
theorem inOrder_emptyWrite : InOrder cmp scmp (emptyWrite : FCompoundWrite κ ν) := fun p v hv =>
  absurd ((FImmutableTree.valueAtPath_empty scmp p).symm.trans hv) (by simp)

theorem inOrder_addWrites {ws : List (List κ × FNode κ ν)} (h : Wf scmp w) (ho : InOrder cmp scmp w)
    (hws : ∀ x ∈ ws, Proper x.2 ∧ Ordered cmp x.2) : InOrder cmp scmp (w.addWrites cmp scmp ws) := by
  induction ws generalizing w with
  | nil => exact ho
  | cons x ws ih =>
    obtain ⟨hproper, hordered⟩ := hws x List.mem_cons_self
    exact ih (wf_addWrite h hproper x.1) (inOrder_addWrite h ho hordered x.1)
      fun y hy => hws y (List.mem_cons_of_mem x hy)

/-- Writes at the path or below are writes to the part. -/
theorem child_addWrites_below {ws : List (List κ × FNode κ ν)} (h : Wf scmp w) (ho : InOrder cmp scmp w)
    (hws : ∀ x ∈ ws, Proper x.2 ∧ Ordered cmp x.2) (hroot : Plain root) :
    (w.addWrites cmp scmp (ws.map fun x => (root ++ x.1, x.2))).childCompoundWriteAtPath cmp scmp root
      = (w.childCompoundWriteAtPath cmp scmp root).addWrites cmp scmp ws := by
  induction ws generalizing w with
  | nil => rfl
  | cons x ws ih =>
    obtain ⟨hproper, hordered⟩ := hws x List.mem_cons_self
    have hrest := ih (wf_addWrite h hproper (root ++ x.1)) (inOrder_addWrite h ho hordered (root ++ x.1))
      fun y hy => hws y (List.mem_cons_of_mem x hy)
    rw [child_addWrite_below h ho hproper hroot] at hrest
    exact hrest

/-- Writes apart from the path do not change the part. -/
theorem child_addWrites_of_apart {ws : List (List κ × FNode κ ν)} (h : Wf scmp w) (ho : InOrder cmp scmp w)
    (hws : ∀ x ∈ ws, Proper x.2 ∧ Ordered cmp x.2) (hplain : ∀ x ∈ ws, Plain x.1) (hroot : Plain root)
    (ha : ∀ x ∈ ws, Apart x.1 root) :
    (w.addWrites cmp scmp ws).childCompoundWriteAtPath cmp scmp root = w.childCompoundWriteAtPath cmp scmp root := by
  induction ws generalizing w with
  | nil => rfl
  | cons x ws ih =>
    obtain ⟨hproper, hordered⟩ := hws x List.mem_cons_self
    have hrest := ih (wf_addWrite h hproper x.1) (inOrder_addWrite h ho hordered x.1)
      (fun y hy => hws y (List.mem_cons_of_mem x hy)) (fun y hy => hplain y (List.mem_cons_of_mem x hy))
      fun y hy => ha y (List.mem_cons_of_mem x hy)
    have hx := hplain x List.mem_cons_self
    rw [child_addWrite_of_apart h ho hproper hx hroot (ha x List.mem_cons_self)] at hrest
    exact hrest

/-- **Of writes apart from each other**, one that is above the path decides the part. -/
theorem child_addWrites_of_mem {ws : List (List κ × FNode κ ν)} (h : Wf scmp w) (ho : InOrder cmp scmp w)
    (hws : ∀ x ∈ ws, Proper x.2 ∧ Ordered cmp x.2) (hplain : ∀ x ∈ ws, Plain x.1) (hs : Separate ws)
    {x : List κ × FNode κ ν} (hx : x ∈ ws) (hroot : Plain root) (hbelow : root = x.1 ++ s) :
    (w.addWrites cmp scmp ws).childCompoundWriteAtPath cmp scmp root = ⟨.withValue (some (getChild cmp x.2 s))⟩ := by
  obtain ⟨before, after, rfl⟩ := List.append_of_mem hx
  obtain ⟨hafter, -⟩ := List.pairwise_cons.mp (List.pairwise_append.mp hs).2.1
  have hbefore := fun y hy => (List.pairwise_append.mp hs).2.2 y hy x List.mem_cons_self
  have hin : ∀ y ∈ before, Proper y.2 ∧ Ordered cmp y.2 := fun y hy => hws y (List.mem_append_left _ hy)
  obtain ⟨hproper, hordered⟩ := hws x (List.mem_append_right before List.mem_cons_self)
  have h₁ : Wf scmp (w.addWrites cmp scmp before) := wf_addWrites h fun y hy => (hin y hy).1
  have ho₁ : InOrder cmp scmp (w.addWrites cmp scmp before) := inOrder_addWrites h ho hin
  rw [addWrites_append]
  show (((w.addWrites cmp scmp before).addWrite cmp scmp x.2 x.1).addWrites cmp scmp after).childCompoundWriteAtPath
    cmp scmp root = _
  rw [child_addWrites_of_apart (wf_addWrite h₁ hproper x.1) (inOrder_addWrite h₁ ho₁ hordered x.1)
    (fun y hy => hws y (List.mem_append_right before (List.mem_cons_of_mem x hy)))
    (fun y hy => hplain y (List.mem_append_right before (List.mem_cons_of_mem x hy))) hroot fun y hy => ?_]
  · rw [hbelow]
    exact child_addWrite_above h₁ ho₁ hproper (hplain x (List.mem_append_right before List.mem_cons_self)) s
  · -- what is apart from the write is apart from what is below it
    have hya := (hafter y hy).symm
    rw [hbelow]
    refine ⟨fun hpre => ?_, fun hpre => hya.2 ((List.prefix_append x.1 s).trans hpre)⟩
    rcases List.prefix_or_prefix_of_prefix hpre (List.prefix_append x.1 s) with hyx | hxy
    · exact hya.1 hyx
    · exact hya.2 hxy

omit [Std.TransCmp cmp] [Std.LawfulEqCmp cmp] in
theorem child_emptyWrite (root : List κ) :
    (emptyWrite : FCompoundWrite κ ν).childCompoundWriteAtPath cmp scmp root = emptyWrite := by
  have hnone : NoneOn scmp (emptyWrite : FCompoundWrite κ ν) root := fun q _ => FImmutableTree.valueAtPath_empty scmp q
  rw [child_of_noneOn hnone]
  refine ext_of_values (wf_subtreeAtPath (wf_emptyWrite scmp) root) (wf_emptyWrite scmp) fun q => ?_
  rw [FImmutableTree.valueAtPath_subtreeAtPath]
  exact (FImmutableTree.valueAtPath_empty scmp _).trans (FImmutableTree.valueAtPath_empty scmp q).symm

end FCompoundWrite

/-! ## The records that count -/

namespace FWriteTree

variable {κ ν : Type} [DecidableEq κ] [PriorityKey κ] {cmp scmp : κ → κ → Ordering}

/-- What a merge above the path writes there is looked up: it is apart, or the merge
begins one key above and writes the path or above it. -/
def LookedUp (root : List κ) (record : FWriteRecord κ ν) : Prop :=
  ∀ merge, record.data = .merge merge → record.path <+: root → ¬ root <+: record.path →
    (∀ x ∈ record.writes, Apart x.1 root) ∨ ((∃ k, root = record.path ++ [k]) ∧ ∃ x ∈ record.writes, x.1 <+: root)

variable [Std.TransCmp scmp] [Std.LawfulEqCmp scmp] [Std.TransCmp cmp] [Std.LawfulEqCmp cmp]
variable {root : List κ} {w : FCompoundWrite κ ν} {record : FWriteRecord κ ν} {records : List (FWriteRecord κ ν)}

/-- A merge from above that is looked up. -/
theorem lookedUp_child {path t : List κ} {merge : FCompoundWrite κ ν} {writeId : ℤ} {visible : Bool}
    (h : w.Wf scmp) (ho : w.InOrder cmp scmp) (hr : FWriteRecord.Wf scmp ⟨path, .merge merge, writeId, visible⟩)
    (hws : ∀ x ∈ FWriteRecord.writes ⟨path, .merge merge, writeId, visible⟩, Proper x.2 ∧ Ordered cmp x.2)
    (hplain : ∀ x ∈ FWriteRecord.writes ⟨path, .merge merge, writeId, visible⟩, Plain x.1) (hroot : Plain (path ++ t))
    (hcases : (∀ x ∈ FWriteRecord.writes ⟨path, .merge merge, writeId, visible⟩, Apart x.1 (path ++ t)) ∨
      ((∃ k, path ++ t = path ++ [k]) ∧
        ∃ x ∈ FWriteRecord.writes ⟨path, .merge merge, writeId, visible⟩, x.1 <+: path ++ t)) :
    (match merge.completeNodeAtPath cmp scmp t with
      | some child => (w.childCompoundWriteAtPath cmp scmp (path ++ t)).addWrite cmp scmp (getChild cmp child t.tail) []
      | none => w.childCompoundWriteAtPath cmp scmp (path ++ t))
      = (w.addWrites cmp scmp (FWriteRecord.writes ⟨path, .merge merge, writeId, visible⟩)).childCompoundWriteAtPath
          cmp scmp (path ++ t) := by
  have hmerge : merge.Wf scmp := hr
  rcases hcases with hapart | ⟨⟨k, hk⟩, x, hx, hxroot⟩
  · -- nothing is looked up, and nothing is written there
    have hnone : merge.completeNodeAtPath cmp scmp t = none := by
      refine FCompoundWrite.completeNodeAtPath_eq_none_iff.mpr fun q hq => ?_
      rcases hv : merge.writeTree.valueAtPath scmp q with _ | v
      · rfl
      · have hx := hapart (path ++ q, v)
          (List.mem_map.mpr ⟨(q, v), (FCompoundWrite.mem_writes hmerge).mpr hv, rfl⟩)
        exact absurd ((List.prefix_append_right_inj path).mpr hq) hx.1
    rw [hnone]
    exact (FCompoundWrite.child_addWrites_of_apart h ho hws hplain hroot hapart).symm
  · obtain rfl := List.append_cancel_left hk
    obtain ⟨y, hy, rfl⟩ := List.mem_map.mp hx
    obtain ⟨r, hr'⟩ := (List.prefix_append_right_inj path).mp hxroot
    have hv := (FCompoundWrite.mem_writes hmerge).mp hy
    have hcomplete : merge.completeNodeAtPath cmp scmp [k] = some (getChild cmp y.2 r) := by
      rw [← hr']
      exact FCompoundWrite.completeNodeAtPath_of_value hmerge hv r
    rw [hcomplete, FCompoundWrite.child_addWrites_of_mem h ho hws hplain hr.separate_writes hx hroot (s := r)
      (by rw [← hr', List.append_assoc])]
    rfl

/-- **One record** does to the part below the path what its writes do to the whole. -/
theorem layerRecord_child (h : w.Wf scmp) (ho : w.InOrder cmp scmp) (hr : record.Wf scmp)
    (hordered : ∀ x ∈ record.writes, Ordered cmp x.2) (hplain : ∀ x ∈ record.writes, Plain x.1) (hroot : Plain root)
    (hlook : LookedUp root record) :
    layerRecord cmp scmp root (w.childCompoundWriteAtPath cmp scmp root) record
      = (w.addWrites cmp scmp record.writes).childCompoundWriteAtPath cmp scmp root := by
  have hws : ∀ x ∈ record.writes, Proper x.2 ∧ Ordered cmp x.2 := fun x hx => ⟨hr.proper hx, hordered x hx⟩
  obtain ⟨path, data, writeId, visible⟩ := record
  -- a record apart from the path writes apart from it
  have hout : ¬ root <+: path → ¬ path <+: root →
      ∀ x ∈ (⟨path, data, writeId, visible⟩ : FWriteRecord κ ν).writes, Apart x.1 root := by
    intro hbelow habove x hx
    have hpre := FWriteRecord.prefix_of_mem_writes hx
    refine ⟨fun hxr => habove (hpre.trans hxr), fun hrx => ?_⟩
    exact not_prefix_of_apart hbelow habove hpre hrx
  unfold layerRecord
  by_cases hbelow : root <+: path
  · obtain ⟨s, rfl⟩ := hbelow
    have hrel : relativePathFrom root (root ++ s) = s := List.drop_left
    rcases data with node | merge
    · obtain ⟨hproper, -⟩ := hws _ (List.mem_singleton_self _)
      simp only [List.prefix_append, if_true, hrel]
      exact (FCompoundWrite.child_addWrite_below h ho hproper hroot s).symm
    · simp only [List.prefix_append, if_true, hrel]
      rw [FCompoundWrite.addCompoundWrite_eq, ← FCompoundWrite.child_addWrites_below h ho ?_ hroot]
      · unfold FWriteRecord.writes
        simp only [List.map_map, Function.comp_def, List.append_assoc]
      · intro x hx
        obtain ⟨y, hy, rfl⟩ := List.mem_map.mp hx
        exact hws (root ++ s ++ y.1, y.2) (List.mem_map_of_mem hy)
  · by_cases habove : path <+: root
    · rcases data with node | merge
      · obtain ⟨s, rfl⟩ := habove
        have hrel : relativePathFrom path (path ++ s) = s := List.drop_left
        obtain ⟨hproper, -⟩ := hws _ (List.mem_singleton_self _)
        simp only [if_neg hbelow, List.prefix_append, if_true, hrel]
        exact (FCompoundWrite.child_addWrite_above h ho hproper (FNode.plain_append_iff.mp hroot).1 s).symm
      · have hcases := hlook merge rfl habove hbelow
        obtain ⟨t, rfl⟩ := habove
        have hrel : relativePathFrom path (path ++ t) = t := List.drop_left
        have hne : ¬ t.isEmpty = true := by
          intro hempty
          rw [List.isEmpty_iff.mp hempty, List.append_nil] at hbelow
          exact hbelow (List.prefix_refl path)
        simp only [if_neg hbelow, List.prefix_append, if_true, hrel, if_neg hne]
        exact lookedUp_child h ho hr hws hplain hroot hcases
    · rcases data with node | merge
      · simp only [if_neg hbelow, if_neg habove]
        exact (FCompoundWrite.child_addWrites_of_apart h ho hws hplain hroot (hout hbelow habove)).symm
      · simp only [if_neg hbelow, if_neg habove]
        exact (FCompoundWrite.child_addWrites_of_apart h ho hws hplain hroot (hout hbelow habove)).symm

/-- **Layering from a path down** gives the part below the path of what the records
that pass give. -/
theorem layerTreeFromWrites_child {filter : FWriteRecord κ ν → Bool} (hwf : ∀ r ∈ records, r.Wf scmp)
    (hordered : ∀ r ∈ records, ∀ x ∈ r.writes, Ordered cmp x.2)
    (hplain : ∀ r ∈ records, filter r = true → ∀ x ∈ r.writes, Plain x.1) (hroot : Plain root)
    (hlook : ∀ r ∈ records, filter r = true → LookedUp root r) :
    layerTreeFromWrites cmp scmp records filter root
      = (layered cmp scmp (records.filter filter)).childCompoundWriteAtPath cmp scmp root := by
  have hloop : ∀ {w : FCompoundWrite κ ν}, w.Wf scmp → w.InOrder cmp scmp →
      records.foldl (fun compoundWrite record =>
          if filter record then layerRecord cmp scmp root compoundWrite record else compoundWrite)
        (w.childCompoundWriteAtPath cmp scmp root)
      = (w.addWrites cmp scmp (writesOf (records.filter filter))).childCompoundWriteAtPath cmp scmp root := by
    induction records with
    | nil => exact fun _ _ => rfl
    | cons r rs ih =>
      intro w h ho
      have hwf' : ∀ c ∈ rs, c.Wf scmp := fun c hc => hwf c (List.mem_cons_of_mem r hc)
      have hordered' : ∀ c ∈ rs, ∀ x ∈ c.writes, Ordered cmp x.2 := fun c hc => hordered c (List.mem_cons_of_mem r hc)
      have hplain' : ∀ c ∈ rs, filter c = true → ∀ x ∈ c.writes, Plain x.1 :=
        fun c hc => hplain c (List.mem_cons_of_mem r hc)
      have hlook' : ∀ c ∈ rs, filter c = true → LookedUp root c := fun c hc => hlook c (List.mem_cons_of_mem r hc)
      have hr := hwf r List.mem_cons_self
      have hrordered := hordered r List.mem_cons_self
      rw [List.foldl_cons, List.filter_cons]
      split_ifs with hfilter
      · rw [layerRecord_child h ho hr hrordered (hplain r List.mem_cons_self hfilter) hroot
          (hlook r List.mem_cons_self hfilter), writesOf_cons, FCompoundWrite.addWrites_append]
        exact ih hwf' hordered' hplain' hlook' (FCompoundWrite.wf_addWrites h fun x hx => hr.proper hx)
          (FCompoundWrite.inOrder_addWrites h ho fun x hx => ⟨hr.proper hx, hrordered x hx⟩)
      · exact ih hwf' hordered' hplain' hlook' h ho
  have hstart := hloop (FCompoundWrite.wf_emptyWrite scmp) FCompoundWrite.inOrder_emptyWrite
  rw [FCompoundWrite.child_emptyWrite] at hstart
  exact hstart

omit [Std.TransCmp scmp] [Std.LawfulEqCmp scmp] [Std.TransCmp cmp] [Std.LawfulEqCmp cmp] in
/-- The records apart from the path are passed over anyway. -/
theorem layerTreeFromWrites_cacheFilter (records : List (FWriteRecord κ ν)) (root : List κ)
    (writeIdsToExclude : Option (List ℤ)) (includeHiddenWrites : Bool) :
    layerTreeFromWrites cmp scmp records (cacheFilter root writeIdsToExclude includeHiddenWrites) root
      = layerTreeFromWrites cmp scmp records (counts writeIdsToExclude includeHiddenWrites) root := by
  unfold layerTreeFromWrites
  congr 1
  funext w record
  unfold cacheFilter
  by_cases hrelated : record.path <+: root ∨ root <+: record.path
  · have hpath : (decide (record.path <+: root) || decide (root <+: record.path)) = true := by
      rw [Bool.or_eq_true, decide_eq_true_eq, decide_eq_true_eq]
      exact hrelated
    rw [hpath, Bool.and_true]
  · obtain ⟨habove, hbelow⟩ := not_or.mp hrelated
    have hsame : layerRecord cmp scmp root w record = w := by
      unfold layerRecord
      rcases record.data with node | merge
      · simp only [if_neg hbelow, if_neg habove]
      · simp only [if_neg hbelow, if_neg habove]
    rw [hsame, ite_self, ite_self]

/-! ## The cache of a transaction -/

variable {self : FWriteTree κ ν} {n : FNode κ ν}

omit [Std.TransCmp cmp] [Std.LawfulEqCmp cmp] in
/-- Where the part below a path is empty no visible record writes on the way to the
path or below it. -/
theorem Synced.apart_of_isEmpty (h : Synced cmp scmp self)
    (hempty : (self.visibleWrites.childCompoundWriteAtPath cmp scmp root).isEmpty = true) :
    ∀ x ∈ writesOf (self.allWrites.filter (·.visible)), Apart x.1 root := by
  have hw := h.wf_visibleWrites
  have hproper : ∀ x ∈ writesOf (self.allWrites.filter (·.visible)), Proper x.2 :=
    proper_of_mem_writesOf fun r hr => h.wf r (List.mem_of_mem_filter hr)
  intro x hx
  obtain ⟨q, u, hq, hu⟩ : HasOn scmp self.visibleWrites x.1 := by
    rw [h.visible]
    exact hasOn_addWrites (FCompoundWrite.wf_emptyWrite scmp) hproper hx
  -- neither a value above the path nor one below it is there
  have habove : ∀ {q u}, self.visibleWrites.writeTree.valueAtPath scmp q = some u → ¬ q <+: root := by
    rintro q u hu ⟨r, rfl⟩
    rw [FCompoundWrite.child_of_value hw hu] at hempty
    cases hempty
  have hnone : FCompoundWrite.NoneOn scmp self.visibleWrites root := by
    intro q hq
    rcases hv : self.visibleWrites.writeTree.valueAtPath scmp q with _ | v
    · rfl
    · exact absurd hq (habove hv)
  have hbelow : ¬ root <+: q := by
    rintro ⟨t, rfl⟩
    rw [FCompoundWrite.child_of_noneOn hnone] at hempty
    have hzero : self.visibleWrites.writeTree.subtreeAtPath scmp root = .empty :=
      FImmutableTree.eq_empty_of_isEmpty hempty
    have hvalue : (self.visibleWrites.writeTree.subtreeAtPath scmp root).valueAtPath scmp t = some u :=
      (FImmutableTree.valueAtPath_subtreeAtPath _ root t).trans hu
    rw [hzero, FImmutableTree.valueAtPath_empty] at hvalue
    cases hvalue
  refine ⟨fun hxr => habove hu (hq.trans hxr), fun hrx => ?_⟩
  rcases List.prefix_or_prefix_of_prefix hq hrx with hqr | hrq
  · exact habove hu hqr
  · exact hbelow hrq

/-- **The cache of a transaction.** In every run whose removals are safe: with some
records excluded or the hidden ones included, the cache at a path is what is there
when the records that count are performed on the data of the server, one after the
other, if the merges among them are looked up. -/
theorem eventCache_excluding {calls : List (WriteCall κ ν)} {treePath : List κ} {writeIdsToExclude : Option (List ℤ)}
    {includeHiddenWrites : Bool} (hsafe : EachStep (step cmp scmp) (SafeCall scmp) initial calls)
    (hrun : run (step cmp scmp) initial calls = some self)
    (hbranch : (writeIdsToExclude.isNone && !includeHiddenWrites) = false)
    (hordered : ∀ r ∈ self.allWrites, ∀ x ∈ r.writes, Ordered cmp x.2)
    (hplain : Plain treePath)
    (hlook : ∀ r ∈ self.allWrites, counts writeIdsToExclude includeHiddenWrites r = true → LookedUp treePath r)
    (hfits : Fits cmp n (writesOf (self.allWrites.filter (counts writeIdsToExclude includeHiddenWrites)))) :
    self.calculateCompleteEventCacheAtPath cmp scmp treePath (some (getChild cmp n treePath)) writeIdsToExclude
        includeHiddenWrites
      = some (getChild cmp
          (layer cmp (writesOf (self.allWrites.filter (counts writeIdsToExclude includeHiddenWrites))) n) treePath) := by
  have h : Synced cmp scmp self := synced_of_run hsafe hrun
  have hwf : ∀ r ∈ self.allWrites.filter (counts writeIdsToExclude includeHiddenWrites), r.Wf scmp :=
    fun r hr => h.wf r (List.mem_of_mem_filter hr)
  have hwrites : ∀ r ∈ self.allWrites, counts writeIdsToExclude includeHiddenWrites r = true →
      ∀ x ∈ r.writes, Plain x.1 :=
    fun r hr hcounts x hx => hfits.plain x (List.mem_flatMap.mpr ⟨r, List.mem_filter.mpr ⟨hr, hcounts⟩, hx⟩)
  -- what the records that count make of the data below the path
  have hchild := FCompoundWrite.applyToNode_childCompoundWrite (wf_layered hwf) (fits_layered hfits) treePath
  rw [applyToNode_layered hfits] at hchild
  unfold calculateCompleteEventCacheAtPath
  rw [if_neg (Bool.eq_false_iff.mp hbranch)]
  dsimp only
  by_cases hnothing : (!includeHiddenWrites
      && (self.visibleWrites.childCompoundWriteAtPath cmp scmp treePath).isEmpty) = true
  · -- no visible record writes there, and those that count are visible
    rw [if_pos hnothing]
    rw [Bool.and_eq_true, Bool.not_eq_true'] at hnothing
    have hapart : ∀ x ∈ writesOf (self.allWrites.filter (counts writeIdsToExclude includeHiddenWrites)),
        Apart x.1 treePath := by
      intro x hx
      obtain ⟨r, hr, hx⟩ := List.mem_flatMap.mp hx
      obtain ⟨hr, hcounts⟩ := List.mem_filter.mp hr
      have hvisible : r.visible = true := by
        unfold counts at hcounts
        rw [hnothing.1, Bool.or_false, Bool.and_eq_true] at hcounts
        exact hcounts.1
      exact h.apart_of_isEmpty hnothing.2 x (List.mem_flatMap.mpr ⟨r, List.mem_filter.mpr ⟨hr, hvisible⟩, hx⟩)
    have hnone : (layered cmp scmp (self.allWrites.filter
        (counts writeIdsToExclude includeHiddenWrites))).childCompoundWriteAtPath cmp scmp treePath = .emptyWrite := by
      refine (FCompoundWrite.child_addWrites_of_apart (FCompoundWrite.wf_emptyWrite scmp)
        FCompoundWrite.inOrder_emptyWrite (fun x hx => ?_) hfits.plain hplain hapart).trans (FCompoundWrite.child_emptyWrite treePath)
      obtain ⟨r, hr, hx⟩ := List.mem_flatMap.mp hx
      exact ⟨(hwf r hr).proper hx, hordered r (List.mem_of_mem_filter hr) x hx⟩
    rw [← hchild, hnone]
    rfl
  · have hknown : ¬ (!includeHiddenWrites && (some (getChild cmp n treePath)).isNone &&
        !(self.visibleWrites.childCompoundWriteAtPath cmp scmp treePath).hasCompleteWriteAtPath cmp scmp []) = true := by
      simp
    rw [if_neg hnothing, if_neg hknown, layerTreeFromWrites_cacheFilter,
      layerTreeFromWrites_child h.wf hordered hwrites hplain hlook, ← hchild]
    rfl

/-! A merge at the parent, and the write of a transaction, which is hidden. -/

def parentMerge : FCompoundWrite Name ℕ := ⟨.node none [(one, .node (some (.leaf 6 none)) [])]⟩

def transactionCalls : List (WriteCall Name ℕ) := [.merge [] parentMerge 0, .overwrite [one] (.leaf 5 none) 1 false]

def transactionTree : FWriteTree Name ℕ where
  visibleWrites := parentMerge
  allWrites := [⟨[], .merge parentMerge, 0, true⟩, ⟨[one], .overwrite (.leaf 5 none), 1, false⟩]
  lastWriteId := 1

theorem run_transaction :
    run (step Name.compareKey Name.compareUnits) initial transactionCalls = some transactionTree := rfl

theorem wf_parentMerge : parentMerge.Wf Name.compareUnits := by
  have h : parentMerge =
      FCompoundWrite.emptyWrite.addWrite Name.compareKey Name.compareUnits (.leaf 6 none) [one] := rfl
  rw [h]
  exact FCompoundWrite.wf_addWrite (FCompoundWrite.wf_emptyWrite Name.compareUnits) (proper_leaf 6) [one]

theorem transaction_safe :
    EachStep (step Name.compareKey Name.compareUnits) (SafeCall Name.compareUnits) initial transactionCalls := by
  refine (eachStep_cons_iff _).mpr ⟨wf_parentMerge, fun s₁ h₁ => ?_⟩
  obtain rfl := Option.some.inj h₁
  exact eachStep_singleton _ (proper_leaf 5)

/-- Without the write of the transaction itself the merge is seen. -/
theorem eventCache_excluding_itself :
    transactionTree.calculateCompleteEventCacheAtPath Name.compareKey Name.compareUnits [one] (some (.leaf 7 none))
      (some [1]) true = some (.leaf 6 none) := by
  refine eventCache_excluding (n := serverSnap) transaction_safe run_transaction rfl (fun r hr => ?_) (by decide)
    (fun r hr _ => ?_) fun x hx => ?_
  · rcases List.mem_cons.mp hr with rfl | hr
    · intro x hx
      obtain rfl := List.mem_singleton.mp hx
      exact .leaf 6 none
    · obtain rfl := List.mem_singleton.mp hr
      intro x hx
      obtain rfl := List.mem_singleton.mp hx
      exact .leaf 5 none
  · rcases List.mem_cons.mp hr with rfl | hr
    · exact fun _ _ _ _ => Or.inr ⟨⟨one, rfl⟩, _, List.mem_singleton_self _, List.prefix_refl [one]⟩
    · obtain rfl := List.mem_singleton.mp hr
      exact fun _ hdata => nomatch hdata
  · obtain rfl := List.mem_singleton.mp hx
    exact ⟨⟨by decide, rfl, List.pairwise_singleton _ _, trivial⟩, proper_leaf 6⟩

end FWriteTree

end TerpBuilder.Sync

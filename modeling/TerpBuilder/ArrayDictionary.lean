/-
`FArraySortedDictionary`: the sorted dictionary over two arrays.

The keys and the values stand in arrays of their own and are found by counting
up from the front. A well-formed dictionary is the two columns of one sorted
list (`WellFormed`), and each operation is that of the list on both columns. The
insertion that would make it longer than 25 hands its entries to the tree
builder and is part of `SortedDictionary`.
-/
import TerpBuilder.TreeDictionary
import Mathlib.Data.List.InsertIdx

set_option autoImplicit false

namespace TerpBuilder

open SortedAssoc

structure FArraySortedDictionary (κ ν : Type) where
  keys : List κ
  values : List ν

namespace FArraySortedDictionary

variable {κ ν : Type}

/-! ## Positions -/

/-- `findInsertPositionForKey:`, on the keys that are left to look at. -/
def findInsertPosition (cmp : κ → κ → Ordering) (key : κ) : List κ → Nat
  | [] => 0
  | k :: ks => if cmp k key = .lt then findInsertPosition cmp key ks + 1 else 0

/-- `findKey:`, where `NSNotFound` is none. -/
def findKey (cmp : κ → κ → Ordering) (key : κ) : List κ → Option Nat
  | [] => none
  | k :: ks =>
    match cmp key k with
    | .eq => some 0
    | .lt => none
    | .gt => (findKey cmp key ks).map (· + 1)

/-! ## Operations -/

/-- The branch of `insertKey:withValue:` for a key that is found. -/
def replaceAt (d : FArraySortedDictionary κ ν) (pos : Nat) (key : κ) (val : ν) :
    FArraySortedDictionary κ ν :=
  ⟨d.keys.set pos key, d.values.set pos val⟩

/-- Its branch for a new key below the threshold. -/
def insertAt (d : FArraySortedDictionary κ ν) (newPos : Nat) (key : κ) (val : ν) :
    FArraySortedDictionary κ ν :=
  ⟨d.keys.insertIdx newPos key, d.values.insertIdx newPos val⟩

def removeKey (cmp : κ → κ → Ordering) (d : FArraySortedDictionary κ ν) (key : κ) :
    FArraySortedDictionary κ ν :=
  match findKey cmp key d.keys with
  | none => d
  | some pos => ⟨d.keys.eraseIdx pos, d.values.eraseIdx pos⟩

def get (cmp : κ → κ → Ordering) (d : FArraySortedDictionary κ ν) (key : κ) : Option ν :=
  match findKey cmp key d.keys with
  | none => none
  | some pos => d.values[pos]?

/-- `contains:` -/
def containsKey (cmp : κ → κ → Ordering) (d : FArraySortedDictionary κ ν) (key : κ) : Bool :=
  (findKey cmp key d.keys).isSome

def getPredecessorKey (cmp : κ → κ → Ordering) (d : FArraySortedDictionary κ ν) (key : κ) :
    Except NSException (Option κ) :=
  match findKey cmp key d.keys with
  | none => .error ⟨"NSInternalInconsistencyException",
      "Can't get predecessor key for non-existent key"⟩
  | some 0 => .ok none
  | some (pos + 1) => .ok d.keys[pos]?

/-! ## The two columns of a sorted list -/

/-- The dictionary of a list of entries. -/
def ofEntries (xs : List (κ × ν)) : FArraySortedDictionary κ ν :=
  ⟨xs.map Prod.fst, xs.map Prod.snd⟩

def entries (d : FArraySortedDictionary κ ν) : List (κ × ν) := d.keys.zip d.values

@[simp] theorem entries_ofEntries (xs : List (κ × ν)) : (ofEntries xs).entries = xs :=
  (List.zip_of_prod rfl rfl).symm

/-- As many values as keys, and the keys in order. -/
structure WellFormed (cmp : κ → κ → Ordering) (d : FArraySortedDictionary κ ν) : Prop where
  sameLength : d.keys.length = d.values.length
  sorted : Sorted cmp d.entries

section Columns

variable {cmp : κ → κ → Ordering} {d : FArraySortedDictionary κ ν} {xs : List (κ × ν)} {key : κ}
  {val : ν} {pos : Nat}

theorem WellFormed.eq_ofEntries (hw : WellFormed cmp d) : d = ofEntries d.entries := by
  obtain ⟨keys, values⟩ := d
  have hlen : keys.length = values.length := hw.sameLength
  unfold ofEntries entries
  rw [List.map_fst_zip hlen.le, List.map_snd_zip hlen.ge]

theorem wellFormed_ofEntries (hs : Sorted cmp xs) : WellFormed cmp (ofEntries xs) := by
  refine ⟨?_, ?_⟩
  · simp only [ofEntries, List.length_map]
  · rwa [entries_ofEntries]

/-- A key is found where its entry is, and not found where there is none. -/
theorem findKey_map (cmp : κ → κ → Ordering) (key : κ) (xs : List (κ × ν)) :
    (∃ l e r, xs = l ++ e :: r ∧ findKey cmp key (xs.map Prod.fst) = some l.length ∧
      (∀ x ∈ l, cmp key x.1 = .gt) ∧ cmp key e.1 = .eq) ∨
    (findKey cmp key (xs.map Prod.fst) = none ∧ lookup cmp key xs = none) := by
  induction xs with
  | nil => exact .inr ⟨rfl, rfl⟩
  | cons x xs ih =>
    simp only [List.map_cons, findKey, lookup]
    cases hx : cmp key x.1 with
    | lt => exact .inr ⟨rfl, rfl⟩
    | eq => exact .inl ⟨[], x, xs, rfl, rfl, by simp, hx⟩
    | gt =>
      rcases ih with ⟨l, e, r, rfl, hfind, hl, he⟩ | ⟨hfind, hnone⟩
      · refine .inl ⟨x :: l, e, r, rfl, ?_, ?_, he⟩
        · rw [hfind]
          rfl
        · exact List.forall_mem_cons.mpr ⟨hx, hl⟩
      · refine .inr ⟨?_, hnone⟩
        rw [hfind]
        rfl

theorem get_ofEntries : get cmp (ofEntries xs) key = lookup cmp key xs := by
  unfold get ofEntries
  rcases findKey_map cmp key xs with ⟨l, e, r, rfl, hfind, hl, he⟩ | ⟨hfind, hnone⟩
  · rw [hfind, lookup_append_eq hl he]
    simp
  · rw [hfind, hnone]

theorem containsKey_ofEntries : containsKey cmp (ofEntries xs) key = (lookup cmp key xs).isSome := by
  unfold containsKey ofEntries
  rcases findKey_map cmp key xs with ⟨l, e, r, rfl, hfind, hl, he⟩ | ⟨hfind, hnone⟩
  · rw [hfind, lookup_append_eq hl he]
    rfl
  · rw [hfind, hnone]
    rfl

theorem removeKey_ofEntries : removeKey cmp (ofEntries xs) key = ofEntries (erase cmp key xs) := by
  unfold removeKey ofEntries
  rcases findKey_map cmp key xs with ⟨l, e, r, rfl, hfind, hl, he⟩ | ⟨hfind, hnone⟩
  · have hidx : (l ++ e :: r).eraseIdx l.length = l ++ r := by
      rw [List.eraseIdx_append_of_length_le (Nat.le_refl _), Nat.sub_self, List.eraseIdx_cons_zero]
    simp only [hfind, List.eraseIdx_map, hidx, erase_append_eq hl he]
  · rw [hfind, erase_of_lookup_eq_none hnone]

variable [Std.TransCmp cmp]

/-- The entry that is replaced is given the new key as well. -/
theorem replaceAt_ofEntries (hs : Sorted cmp xs) (hfind : findKey cmp key (ofEntries xs).keys = some pos) :
    (ofEntries xs).replaceAt pos key val
      = ofEntries (SortedAssoc.insert cmp key val (erase cmp key xs)) := by
  rcases findKey_map cmp key xs with ⟨l, e, r, rfl, hfind', hl, he⟩ | ⟨hfind', hnone⟩
  · obtain rfl : l.length = pos := Option.some.inj (hfind'.symm.trans hfind)
    rw [hs.insert_erase_append he]
    unfold replaceAt ofEntries
    simp
  · have h : none = some pos := hfind'.symm.trans hfind
    cases h

theorem insertIdx_findInsertPosition (hnew : findKey cmp key (xs.map Prod.fst) = none) :
    xs.insertIdx (findInsertPosition cmp key (xs.map Prod.fst)) (key, val) =
      SortedAssoc.insert cmp key val xs := by
  induction xs with
  | nil => rfl
  | cons x xs ih =>
    simp only [List.map_cons, findKey, findInsertPosition, SortedAssoc.insert] at hnew ⊢
    cases hx : cmp key x.1 with
    | lt =>
      have hgt : cmp x.1 key ≠ .lt := by
        rw [Std.OrientedCmp.gt_of_lt hx]
        decide
      rw [if_neg hgt, List.insertIdx_zero]
    | eq => simp only [hx, reduceCtorEq] at hnew
    | gt =>
      simp only [hx, Option.map_eq_none_iff] at hnew
      rw [if_pos (Std.OrientedCmp.lt_of_gt hx), List.insertIdx_succ_cons, ih hnew]

theorem insertAt_ofEntries (hnew : findKey cmp key (ofEntries xs).keys = none) :
    (ofEntries xs).insertAt (findInsertPosition cmp key (ofEntries xs).keys) key val =
      ofEntries (SortedAssoc.insert cmp key val xs) := by
  rw [← insertIdx_findInsertPosition hnew]
  unfold insertAt ofEntries
  rw [List.map_insertIdx, List.map_insertIdx]

/-- `getPredecessorKey:` gives the last key before one that is there, and
throws where the key is not. -/
theorem getPredecessorKey_ofEntries (hs : Sorted cmp xs) :
    getPredecessorKey cmp (ofEntries xs) key =
      if (lookup cmp key xs).isSome then .ok (predecessor cmp key xs)
      else .error ⟨"NSInternalInconsistencyException",
        "Can't get predecessor key for non-existent key"⟩ := by
  unfold getPredecessorKey ofEntries
  rcases findKey_map cmp key xs with ⟨l, e, r, rfl, hfind, hl, he⟩ | ⟨hfind, hnone⟩
  · have hle : cmp key e.1 ≠ .gt := by
      rw [he]
      decide
    rw [hfind, lookup_append_eq hl he, hs.predecessor_append_le hle, predecessor_of_forall_gt hl]
    rcases List.eq_nil_or_concat l with rfl | ⟨l', x, rfl⟩
    · rfl
    · simp
  · rw [hfind, hnone]
    rfl

end Columns

end FArraySortedDictionary
end TerpBuilder

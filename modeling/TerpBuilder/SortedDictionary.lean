/-
`FImmutableSortedDictionary`: arrays up to 25 entries, a tree above.

The two forms are one dictionary. `insertKey` turns the array into a tree when
it would grow past the threshold and nothing turns a tree back, so which form a
dictionary has depends on its history; what it holds does not. A history of
insertions and removals is a run, and the refinement is to the sorted list of
entries. Of the comparator it is asked that it is a total order of the keys up to
those that compare as the same; it need not tell all keys apart.
-/
import TerpBuilder.ArrayDictionary
import TerpBuilder.Run

set_option autoImplicit false

namespace TerpBuilder

open SortedAssoc

inductive FImmutableSortedDictionary (κ ν : Type) where
  | array (dictionary : FArraySortedDictionary κ ν)
  | tree (root : LLRBNode κ ν)

namespace FImmutableSortedDictionary

variable {κ ν : Type}

def isTree : FImmutableSortedDictionary κ ν → Bool
  | array _ => false
  | tree _ => true

/-- `SORTED_DICTIONARY_ARRAY_TO_RB_TREE_SIZE_THRESHOLD` -/
def threshold : Nat := 25

/-- `dictionaryWithComparator:` -/
def empty : FImmutableSortedDictionary κ ν := .array ⟨[], []⟩

def fromDictionary (cmp : κ → κ → Ordering) (dictionary : List (κ × ν)) :
    Except NSException (FImmutableSortedDictionary κ ν) :=
  if dictionary.length ≤ threshold then
    (FTreeSortedDictionary.sortedEntries cmp dictionary).map fun sorted =>
      .array (.ofEntries sorted)
  else (FTreeSortedDictionary.fromDictionary cmp dictionary).map .tree

def insertKey (cmp : κ → κ → Ordering) (key : κ) (val : ν) :
    FImmutableSortedDictionary κ ν → Except NSException (FImmutableSortedDictionary κ ν)
  | .tree root => .ok (.tree (FTreeSortedDictionary.insertKey cmp root key val))
  | .array d =>
    match FArraySortedDictionary.findKey cmp key d.keys with
    | none =>
      if threshold ≤ d.keys.length then
        (FTreeSortedDictionary.fromDictionary cmp (d.entries ++ [(key, val)])).map .tree
      else
        .ok (.array (d.insertAt (FArraySortedDictionary.findInsertPosition cmp key d.keys) key val))
    | some pos => .ok (.array (d.replaceAt pos key val))

def removeKey (cmp : κ → κ → Ordering) (key : κ) :
    FImmutableSortedDictionary κ ν → FImmutableSortedDictionary κ ν
  | .tree root => .tree (FTreeSortedDictionary.removeKey cmp root key)
  | .array d => .array (d.removeKey cmp key)

def get (cmp : κ → κ → Ordering) (key : κ) : FImmutableSortedDictionary κ ν → Option ν
  | .tree root => FTreeSortedDictionary.get cmp key root
  | .array d => d.get cmp key

/-- `contains:` -/
def containsKey (cmp : κ → κ → Ordering) (key : κ) : FImmutableSortedDictionary κ ν → Bool
  | .tree root => FTreeSortedDictionary.containsKey cmp root key
  | .array d => d.containsKey cmp key

def getPredecessorKey (cmp : κ → κ → Ordering) (key : κ) :
    FImmutableSortedDictionary κ ν → Except NSException (Option κ)
  | .tree root => FTreeSortedDictionary.getPredecessorKey cmp root key
  | .array d => d.getPredecessorKey cmp key

def count : FImmutableSortedDictionary κ ν → Nat
  | .tree root => root.count
  | .array d => d.keys.length

def minKey : FImmutableSortedDictionary κ ν → Option κ
  | .tree root => root.minKey
  | .array d => d.keys.head?

def maxKey : FImmutableSortedDictionary κ ν → Option κ
  | .tree root => root.maxKey
  | .array d => d.keys.getLast?

/-- The entries `enumerateKeysAndObjectsUsingBlock:` gives, when the block does not stop it. -/
def entries : FImmutableSortedDictionary κ ν → List (κ × ν)
  | .tree root => root.inorder
  | .array d => d.entries

/-! ## What a dictionary is -/

def WellFormed (cmp : κ → κ → Ordering) : FImmutableSortedDictionary κ ν → Prop
  | .tree root => FTreeSortedDictionary.WellFormed cmp root
  | .array d => d.WellFormed cmp

section Refinement

variable {cmp : κ → κ → Ordering} {d : FImmutableSortedDictionary κ ν} {key : κ} {val : ν}
  {dictionary : List (κ × ν)}

@[simp] theorem entries_tree (root : LLRBNode κ ν) : (tree root).entries = root.inorder := rfl

@[simp] theorem entries_array (xs : List (κ × ν)) : (array (.ofEntries xs)).entries = xs :=
  FArraySortedDictionary.entries_ofEntries xs

theorem wellFormed_array {xs : List (κ × ν)} (hs : Sorted cmp xs) :
    WellFormed cmp (array (.ofEntries xs)) :=
  FArraySortedDictionary.wellFormed_ofEntries hs

theorem wellFormed_empty : WellFormed cmp (empty : FImmutableSortedDictionary κ ν) :=
  wellFormed_array sorted_nil

/-- Either a balanced tree, or the columns of a sorted list. -/
theorem WellFormed.form (hw : WellFormed cmp d) :
    (∃ root, d = .tree root ∧ FTreeSortedDictionary.WellFormed cmp root) ∨
      ∃ xs, d = .array (.ofEntries xs) ∧ Sorted cmp xs := by
  match d, hw with
  | .tree root, hw => exact .inl ⟨root, rfl, hw⟩
  | .array d, hw =>
    exact .inr ⟨d.entries, congrArg array (FArraySortedDictionary.WellFormed.eq_ofEntries hw),
      FArraySortedDictionary.WellFormed.sorted hw⟩

theorem WellFormed.sorted (hw : WellFormed cmp d) : Sorted cmp d.entries := by
  rcases hw.form with ⟨root, rfl, hroot⟩ | ⟨xs, rfl, hs⟩
  · exact hroot.sorted
  · rwa [entries_array]

/-! ### What is read -/

theorem minKey_eq (hw : WellFormed cmp d) : d.minKey = d.entries.head?.map Prod.fst := by
  rcases hw.form with ⟨root, rfl, -⟩ | ⟨xs, rfl, -⟩
  · exact root.minKey_eq
  · rw [entries_array]
    exact List.head?_map

theorem maxKey_eq (hw : WellFormed cmp d) : d.maxKey = d.entries.getLast?.map Prod.fst := by
  rcases hw.form with ⟨root, rfl, -⟩ | ⟨xs, rfl, -⟩
  · exact root.maxKey_eq
  · rw [entries_array]
    exact List.getLast?_map

theorem count_eq (hw : WellFormed cmp d) : d.count = d.entries.length := by
  rcases hw.form with ⟨root, rfl, -⟩ | ⟨xs, rfl, -⟩
  · exact root.count_eq_length
  · rw [entries_array]
    exact List.length_map _

variable [Std.TransCmp cmp]

theorem get_eq (hw : WellFormed cmp d) : d.get cmp key = lookup cmp key d.entries := by
  rcases hw.form with ⟨root, rfl, hroot⟩ | ⟨xs, rfl, -⟩
  · exact FTreeSortedDictionary.get_eq_lookup hroot.sorted
  · rw [entries_array]
    exact FArraySortedDictionary.get_ofEntries

theorem containsKey_eq (hw : WellFormed cmp d) :
    d.containsKey cmp key = (lookup cmp key d.entries).isSome := by
  rcases hw.form with ⟨root, rfl, hroot⟩ | ⟨xs, rfl, -⟩
  · exact congrArg Option.isSome (FTreeSortedDictionary.get_eq_lookup hroot.sorted)
  · rw [entries_array]
    exact FArraySortedDictionary.containsKey_ofEntries

/-- A key that is there has a predecessor or is the first; asking for one that is not throws. -/
theorem getPredecessorKey_eq (hw : WellFormed cmp d) :
    (d.getPredecessorKey cmp key).toOption =
      if (lookup cmp key d.entries).isSome then some (predecessor cmp key d.entries) else none := by
  rcases hw.form with ⟨root, rfl, hroot⟩ | ⟨xs, rfl, hs⟩
  · change (FTreeSortedDictionary.predecessorFrom cmp key none root).toOption = _
    rw [FTreeSortedDictionary.predecessorFrom_eq hroot.sorted, entries_tree, Option.or_none]
    split_ifs <;> rfl
  · change (FArraySortedDictionary.getPredecessorKey cmp (.ofEntries xs) key).toOption = _
    rw [FArraySortedDictionary.getPredecessorKey_ofEntries hs, entries_array]
    split_ifs <;> rfl

/-! ### What is written -/

/-- **A removal is that of the list**, in both forms. -/
theorem removeKey_spec (key : κ) (hw : WellFormed cmp d) :
    WellFormed cmp (d.removeKey cmp key) ∧
      (d.removeKey cmp key).entries = erase cmp key d.entries := by
  rcases hw.form with ⟨root, rfl, hroot⟩ | ⟨xs, rfl, hs⟩
  · exact ⟨hroot.removeKey, FTreeSortedDictionary.inorder_removeKey hroot⟩
  · rw [removeKey, FArraySortedDictionary.removeKey_ofEntries, entries_array, entries_array]
    exact ⟨wellFormed_array hs.erase, rfl⟩

/-- **A dictionary is built** from entries no two of whose keys compare as the
same, in the form their number asks for; from others the exception is thrown. -/
theorem fromDictionary_spec (h : dictionary.Pairwise fun a b => cmp a.1 b.1 ≠ .eq) :
    ∃ d, fromDictionary cmp dictionary = .ok d ∧ WellFormed cmp d ∧
      d.entries.Perm dictionary := by
  unfold fromDictionary
  split_ifs with hle
  · obtain ⟨sorted, hsorted⟩ := FTreeSortedDictionary.exists_sortedEntries_iff.mpr h
    obtain ⟨hs, hp⟩ := FTreeSortedDictionary.sortedEntries_spec hsorted
    rw [hsorted]
    refine ⟨_, rfl, wellFormed_array hs, ?_⟩
    rwa [entries_array]
  · obtain ⟨root, hroot, hw, hp⟩ := FTreeSortedDictionary.fromDictionary_spec h
    rw [hroot]
    exact ⟨_, rfl, hw, hp⟩

theorem fromDictionary_eq_error (h : ¬ dictionary.Pairwise fun a b => cmp a.1 b.1 ≠ .eq) :
    fromDictionary cmp dictionary = .error ⟨"NSInvalidArgumentException",
      "Can't create FImmutableSortedDictionary with keys with same ordering!"⟩ := by
  rw [fromDictionary, FTreeSortedDictionary.fromDictionary, FTreeSortedDictionary.sortedEntries_eq_error h]
  split_ifs <;> rfl

/-- The entries of an array and a new one, as the tree builder gets them. -/
theorem fromDictionary_concat {xs : List (κ × ν)} (v : ν) (hs : Sorted cmp xs)
    (hnew : lookup cmp key xs = none) :
    ∃ root, FTreeSortedDictionary.fromDictionary cmp (xs ++ [(key, v)]) = .ok root ∧
      FTreeSortedDictionary.WellFormed cmp root ∧
      root.inorder = SortedAssoc.insert cmp key v xs := by
  have hpair : (xs ++ [(key, v)]).Pairwise fun a b => cmp a.1 b.1 ≠ .eq := by
    rw [List.pairwise_append]
    refine ⟨hs.imp ?_, List.pairwise_singleton _ _, ?_⟩
    · intro a b hab
      rw [hab]
      decide
    · intro x hx y hy heq
      rw [List.mem_singleton.mp hy] at heq
      rw [hs.lookup_of_mem hx (Std.OrientedCmp.eq_symm heq)] at hnew
      cases hnew
  obtain ⟨root, hroot, hw, hp⟩ := FTreeSortedDictionary.fromDictionary_spec hpair
  refine ⟨root, hroot, hw, hw.sorted.eq_of_perm hs.insert ?_⟩
  exact hp.trans ((List.perm_append_singleton _ _).trans (insert_perm hnew).symm)

/-- **An insertion is that of the list**, in both forms and where one becomes
the other. It does not throw. Where the list has a key that compares as the same, a
tree keeps that key, and an array takes the new one. -/
theorem insertKey_spec (key : κ) (val : ν) (hw : WellFormed cmp d) :
    ∃ d', d.insertKey cmp key val = .ok d' ∧ WellFormed cmp d' ∧
      d'.entries = SortedAssoc.insert cmp key val (if d.isTree then d.entries else erase cmp key d.entries) := by
  rcases hw.form with ⟨root, rfl, hroot⟩ | ⟨xs, rfl, hs⟩
  · exact ⟨_, rfl, hroot.insertKey, FTreeSortedDictionary.inorder_insertKey hroot⟩
  · rw [entries_array, isTree, if_neg Bool.false_ne_true]
    have hput : WellFormed cmp (array (.ofEntries (SortedAssoc.insert cmp key val (erase cmp key xs)))) ∧
        (array (.ofEntries (SortedAssoc.insert cmp key val (erase cmp key xs)))).entries =
          SortedAssoc.insert cmp key val (erase cmp key xs) :=
      ⟨wellFormed_array hs.erase.insert, entries_array _⟩
    cases hfind : FArraySortedDictionary.findKey cmp key (FArraySortedDictionary.ofEntries xs).keys with
    | some pos =>
      refine ⟨_, ?_, hput⟩
      simp only [insertKey, hfind, FArraySortedDictionary.replaceAt_ofEntries hs hfind]
    | none =>
      have hnew : lookup cmp key xs = none := by
        rw [← FArraySortedDictionary.get_ofEntries, FArraySortedDictionary.get, hfind]
      rw [erase_of_lookup_eq_none hnew] at hput ⊢
      by_cases hlen : threshold ≤ (FArraySortedDictionary.ofEntries xs).keys.length
      · obtain ⟨root, hroot, hw', hin⟩ := fromDictionary_concat val hs hnew
        refine ⟨.tree root, ?_, hw', hin⟩
        simp only [insertKey, hfind, if_pos hlen, FArraySortedDictionary.entries_ofEntries, hroot]
        rfl
      · refine ⟨_, ?_, hput⟩
        simp only [insertKey, hfind, if_neg hlen, FArraySortedDictionary.insertAt_ofEntries hfind]

/-- **What is found after an insertion**, whichever key is kept. -/
theorem insertKey_lookup (key : κ) (val : ν) (hw : WellFormed cmp d) :
    ∃ d', d.insertKey cmp key val = .ok d' ∧ WellFormed cmp d' ∧
      ∀ k, lookup cmp k d'.entries = if cmp k key = .eq then some val else lookup cmp k d.entries := by
  obtain ⟨d', hd', hw', hin⟩ := insertKey_spec key val hw
  refine ⟨d', hd', hw', fun k => ?_⟩
  rw [hin]
  split_ifs with htree hk hk
  · rw [lookup_insert hw.sorted, if_pos hk]
  · rw [lookup_insert hw.sorted, if_neg hk]
  · rw [lookup_insert hw.sorted.erase, if_pos hk]
  · rw [lookup_insert hw.sorted.erase, if_neg hk, lookup_erase hw.sorted, if_neg hk]

end Refinement

end FImmutableSortedDictionary
end TerpBuilder

/-
Histories of a sorted dictionary.

A dictionary that starts empty and is edited is an array first and a tree from
some insertion on. Whatever the edits are, nothing throws, and every question
has the answer that the edits give by themselves: the last value written under a
key or one that compares as the same, if it was not removed after that. The
enumerators and the source's own checks are answered for every dictionary a history
leads to. All of it holds for `compareKey`, which takes `-0` and `00` for one key.
-/
import TerpBuilder.DictionaryEnumerator
import TerpBuilder.Keys

set_option autoImplicit false

namespace TerpBuilder.FImmutableSortedDictionary

open SortedAssoc LLRBNode

variable {κ ν : Type}

/-- What a client does to a dictionary. -/
inductive Edit (κ ν : Type) where
  | insertKey (key : κ) (val : ν)
  | removeKey (key : κ)

def edit (cmp : κ → κ → Ordering) (d : FImmutableSortedDictionary κ ν) :
    Edit κ ν → Option (FImmutableSortedDictionary κ ν)
  | .insertKey key val => (d.insertKey cmp key val).toOption
  | .removeKey key => some (d.removeKey cmp key)

/-- The value an edit leaves under a key that had `held`: an edit of a key that
compares as the same is one of the key. -/
def Edit.under (cmp : κ → κ → Ordering) (key : κ) (held : Option ν) : Edit κ ν → Option ν
  | .insertKey k val => if cmp key k = .eq then some val else held
  | .removeKey k => if cmp key k = .eq then none else held

/-- The last value written under a key, unless the key was removed since. -/
def lastWritten (cmp : κ → κ → Ordering) (key : κ) (edits : List (Edit κ ν)) : Option ν :=
  edits.foldl (Edit.under cmp key) none

theorem get_empty (cmp : κ → κ → Ordering) (key : κ) :
    (empty : FImmutableSortedDictionary κ ν).get cmp key = none := rfl

/-- An array is not longer than the threshold. -/
def Short (d : FImmutableSortedDictionary κ ν) : Prop :=
  ∀ a, d = .array a → a.keys.length ≤ threshold

theorem short_insertKey {cmp : κ → κ → Ordering} {d d' : FImmutableSortedDictionary κ ν} {key : κ}
    {val : ν} (hshort : Short d) (h : d.insertKey cmp key val = .ok d') : Short d' := by
  rcases d with a₀ | root
  · have hlen : a₀.keys.length ≤ threshold := hshort a₀ rfl
    rw [insertKey] at h
    split at h
    · split_ifs at h with hfull
      · -- a full array becomes a tree
        rcases hroot : FTreeSortedDictionary.fromDictionary cmp (a₀.entries ++ [(key, val)]) with
          e | root
        · rw [hroot] at h
          cases h
        · rw [hroot] at h
          cases h
          rintro a ⟨⟩
      · cases h
        rintro a ⟨⟩
        simp only [FArraySortedDictionary.insertAt, List.length_insertIdx]
        split_ifs <;> omega
    · cases h
      rintro a ⟨⟩
      rwa [FArraySortedDictionary.replaceAt, List.length_set]
  · cases h
    rintro a ⟨⟩

theorem short_removeKey {cmp : κ → κ → Ordering} {d : FImmutableSortedDictionary κ ν} {key : κ}
    (hshort : Short d) : Short (d.removeKey cmp key) := by
  rcases d with a₀ | root
  · have hlen : a₀.keys.length ≤ threshold := hshort a₀ rfl
    rintro a ⟨⟩
    rw [FArraySortedDictionary.removeKey]
    split
    · exact hlen
    · exact (List.length_eraseIdx_le _ _).trans hlen
  · rintro a ⟨⟩

theorem short_edit {cmp : κ → κ → Ordering} {d d' : FImmutableSortedDictionary κ ν} {e : Edit κ ν}
    (hshort : Short d) (h : edit cmp d e = some d') : Short d' := by
  cases e with
  | insertKey key val =>
    rw [edit] at h
    rcases hd : d.insertKey cmp key val with err | d''
    · rw [hd] at h
      cases h
    · rw [hd] at h
      cases h
      exact short_insertKey hshort hd
  | removeKey key =>
    cases h
    exact short_removeKey hshort

theorem short_of_run {cmp : κ → κ → Ordering} {d : FImmutableSortedDictionary κ ν}
    {edits : List (Edit κ ν)} (h : run (edit cmp) empty edits = some d) : Short d := by
  refine run_invariant Short (fun d₁ e d₂ hs _ hstep => short_edit hs hstep) ?_ h
  rintro a ⟨⟩
  exact Nat.zero_le _

section History

variable {cmp : κ → κ → Ordering} [Std.TransCmp cmp] {d d' : FImmutableSortedDictionary κ ν}
  {edits : List (Edit κ ν)}

/-- **An edit does not throw**, and changes what is found as the edit says. -/
theorem edit_spec (hw : WellFormed cmp d) (a : Edit κ ν) :
    ∃ d', edit cmp d a = some d' ∧ WellFormed cmp d' ∧
      ∀ key, d'.get cmp key = a.under cmp key (d.get cmp key) := by
  cases a with
  | insertKey k val =>
    obtain ⟨d', hd', hw', hlookup⟩ := insertKey_lookup k val hw
    refine ⟨d', by rw [edit, hd']; rfl, hw', fun key => ?_⟩
    rw [get_eq hw', get_eq hw, hlookup, Edit.under]
  | removeKey k =>
    obtain ⟨hw', hin⟩ := removeKey_spec k hw
    refine ⟨_, rfl, hw', fun key => ?_⟩
    rw [get_eq hw', get_eq hw, hin, lookup_erase hw.sorted, Edit.under]

/-- Every history leads somewhere. -/
theorem exists_run (cmp : κ → κ → Ordering) [Std.TransCmp cmp] (edits : List (Edit κ ν)) :
    ∃ d, run (edit cmp) empty edits = some d ∧ WellFormed cmp d := by
  refine run_total (WellFormed cmp) ?_ wellFormed_empty
  intro d a hw _
  obtain ⟨d', hd', hw', -⟩ := edit_spec hw a
  exact ⟨d', hd', hw'⟩

/-- What a history leaves is well formed and holds the last values written. -/
theorem run_spec (h : run (edit cmp) empty edits = some d) :
    WellFormed cmp d ∧ ∀ key, d.get cmp key = lastWritten cmp key edits := by
  refine run_history (fun pre d => WellFormed cmp d ∧ ∀ key, d.get cmp key = lastWritten cmp key pre)
    (fun _ _ => True) ?_ ⟨wellFormed_empty, get_empty cmp⟩ (fun _ _ _ _ _ => trivial) h
  rintro pre a d₁ d₂ ⟨hw, hget⟩ - - hstep
  obtain ⟨d', hd', hw', hget'⟩ := edit_spec hw a
  obtain rfl : d' = d₂ := Option.some.inj (hd'.symm.trans hstep)
  refine ⟨hw', fun key => ?_⟩
  rw [hget', hget, lastWritten, lastWritten, List.foldl_append]
  rfl

/-- **After any history of edits nothing has been thrown, and the dictionary
holds under each key the last value written under it or one that compares as the
same**, in ascending order of the keys. -/
theorem history_holds_lastWritten (cmp : κ → κ → Ordering) [Std.TransCmp cmp] (edits : List (Edit κ ν)) :
    ∃ d, run (edit cmp) empty edits = some d ∧ Sorted cmp d.entries ∧
      d.count = d.entries.length ∧
      ∀ key, d.get cmp key = lastWritten cmp key edits ∧
        d.containsKey cmp key = (lastWritten cmp key edits).isSome ∧
        (d.getPredecessorKey cmp key).toOption =
          if (lastWritten cmp key edits).isSome then some (predecessor cmp key d.entries) else none := by
  obtain ⟨d, hd, hw⟩ := exists_run cmp edits
  refine ⟨d, hd, hw.sorted, count_eq hw, fun key => ?_⟩
  have hget := (run_spec hd).2 key
  have hlookup : lookup cmp key d.entries = lastWritten cmp key edits := by
    rw [← get_eq hw, hget]
  rw [containsKey_eq hw, getPredecessorKey_eq hw, hlookup]
  exact ⟨hget, rfl, rfl⟩

/-- Children written under `7` and `-0`; `00` is taken for the second key, and what
is written under it is read there. -/
theorem history_holds_lastWritten_zeros :
    ∃ d : FImmutableSortedDictionary Key Char,
      run (edit FUtilities.compareKey) empty
          [.insertKey (.name [0x37]) 'a', .insertKey (.name [0x2D, 0x30]) 'b', .removeKey (.name [0x37]),
            .insertKey (.name [0x30, 0x30]) 'c'] = some d ∧
        d.get FUtilities.compareKey (.name [0x2D, 0x30]) = some 'c' ∧
        d.containsKey FUtilities.compareKey (.name [0x37]) = false := by
  obtain ⟨d, hd, -, -, hget⟩ := history_holds_lastWritten FUtilities.compareKey
    [.insertKey (.name [0x37]) 'a', .insertKey (.name [0x2D, 0x30]) 'b', .removeKey (.name [0x37]),
      .insertKey (.name [0x30, 0x30]) 'c']
  exact ⟨d, hd, (hget (.name [0x2D, 0x30])).1, (hget (.name [0x37])).2.1⟩

/-- **An array is never longer than 25, and every tree a history leads to passes
the source's own checks**: a search in it compares at most twice the logarithm of
the number of its entries. -/
theorem history_form (h : run (edit cmp) empty edits = some d) :
    (∀ a, d = .array a → a.keys.length ≤ 25) ∧
    ∀ root, d = .tree root → (∃ depth, root.check = .ok depth) ∧ root.checkMaxDepth = .ok true ∧
      root.height ≤ 2 * Nat.log2 (root.count + 1) := by
  refine ⟨short_of_run h, ?_⟩
  rintro root rfl
  have hw : FTreeSortedDictionary.WellFormed cmp root := (run_spec h).1
  obtain ⟨depth, hb⟩ := hw.balanced
  exact ⟨⟨depth, check_of_balanced hb⟩, checkMaxDepth_of_balanced hb, hb.height_le_log⟩

/-- **The enumerators of whatever a history leads to**: all keys forward, and
the keys from a start key on in either direction. The reverse enumerator without
a start key gives all keys of an array and none of a tree. -/
theorem history_enumerates (start : κ) (h : run (edit cmp) empty edits = some d) :
    d.keyEnumerator cmp false = d.entries.map Prod.fst ∧
    (∀ isReverse, d.keyEnumeratorFrom cmp isReverse start = keysFrom cmp isReverse start d.entries) ∧
    d.keyEnumerator cmp true =
      if d.isTree then [] else (d.entries.map Prod.fst).reverse := by
  have hw := (run_spec h).1
  exact ⟨keyEnumerator_forward hw, keyEnumeratorFrom_eq hw, keyEnumerator_reverse hw⟩

end History

/-- Thirty children, more than an array takes: the names of one to thirty letters. -/
def thirty : List (Edit Key ℕ) :=
  (List.range 30).map fun i => .insertKey (.name (List.replicate (i + 1) 0x61)) i

theorem history_form_thirty :
    ∃ d, run (edit FUtilities.compareKey) empty thirty = some d ∧
      ∀ root, d = .tree root → root.height ≤ 2 * Nat.log2 (root.count + 1) := by
  obtain ⟨d, hd, -⟩ := exists_run FUtilities.compareKey thirty
  exact ⟨d, hd, fun root hroot => ((history_form hd).2 root hroot).2.2⟩

theorem history_enumerates_thirty :
    ∃ d, run (edit FUtilities.compareKey) empty thirty = some d ∧
      d.keyEnumeratorFrom FUtilities.compareKey true (.name [0x61, 0x61])
        = keysFrom FUtilities.compareKey true (.name [0x61, 0x61]) d.entries := by
  obtain ⟨d, hd, -⟩ := exists_run FUtilities.compareKey thirty
  exact ⟨d, hd, (history_enumerates _ hd).2.1 true⟩

end TerpBuilder.FImmutableSortedDictionary

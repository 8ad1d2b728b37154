/-
`FTreeSortedDictionary`: the sorted dictionary over a red-black tree.

The dictionary is its root; the comparator is a parameter. Every root that the
operations make is black and balanced, and its entries are what the sorted list
says. The second half is `fromDictionary:withComparator:`, which does not insert
one key after another: it writes the number of keys in the digits 1 and 2 and
hangs a complete tree under each digit.
-/
import TerpBuilder.LLRBBalance
import Mathlib.Data.List.Sort

set_option autoImplicit false

namespace TerpBuilder

open LLRBNode SortedAssoc

/-- What is thrown. -/
structure NSException where
  name : String
  reason : String
  deriving DecidableEq, Repr

namespace FTreeSortedDictionary

variable {κ ν : Type}

/-! ## Operations -/

/-- `copyWith:nil withValue:nil withColor:BLACK withLeft:nil withRight:nil` -/
def blacken (n : LLRBNode κ ν) : LLRBNode κ ν := n.copyWith none none (some .black) none none

def insertKey (cmp : κ → κ → Ordering) (root : LLRBNode κ ν) (aKey : κ) (aValue : ν) :
    LLRBNode κ ν :=
  blacken (root.insertKey cmp aKey aValue)

/-- `get:`, whose loop goes down from the root. -/
def get (cmp : κ → κ → Ordering) (key : κ) : LLRBNode κ ν → Option ν
  | .empty => none
  | .value k v _ l r =>
    match cmp key k with
    | .eq => some v
    | .lt => get cmp key l
    | .gt => get cmp key r

/-- `contains:` -/
def containsKey (cmp : κ → κ → Ordering) (root : LLRBNode κ ν) (key : κ) : Bool :=
  (get cmp key root).isSome

def removeKey (cmp : κ → κ → Ordering) (root : LLRBNode κ ν) (aKey : κ) : LLRBNode κ ν :=
  if !containsKey cmp root aKey then root else blacken (root.remove cmp aKey)

/-- The loop of `getPredecessorKey:`, with the key of `rightParent`. The loop
down the right of the left child is that of `maxKey`. -/
def predecessorFrom (cmp : κ → κ → Ordering) (key : κ) :
    Option κ → LLRBNode κ ν → Except NSException (Option κ)
  | _, .empty =>
    .error ⟨"NonexistentKey", "getPredecessorKey called with nonexistent key."⟩
  | rightParent, .value k _ _ l r =>
    match cmp key k with
    | .eq => .ok (if !l.isEmpty then l.maxKey else rightParent)
    | .lt => predecessorFrom cmp key rightParent l
    | .gt => predecessorFrom cmp key (some k) r

def getPredecessorKey (cmp : κ → κ → Ordering) (root : LLRBNode κ ν) (key : κ) :
    Except NSException (Option κ) :=
  predecessorFrom cmp key none root

/-! ## The operations on a balanced tree -/

/-- The roots a dictionary can have. -/
structure WellFormed (cmp : κ → κ → Ordering) (root : LLRBNode κ ν) : Prop where
  balanced : ∃ h, Balanced root .black h
  sorted : Sorted cmp root.inorder

section Operations

variable {cmp : κ → κ → Ordering} {root n : LLRBNode κ ν} {aKey k : κ} {aValue : ν}
  {c : LLRBColor} {h : Nat}

theorem inorder_blacken (n : LLRBNode κ ν) : (blacken n).inorder = n.inorder := by
  cases n <;> rfl

theorem blacken_recolor (n : LLRBNode κ ν) : blacken n.recolor = blacken n := by
  cases n <;> rfl

theorem balanced_blacken (hn : Balanced n c h) : ∃ h', Balanced (blacken n) .black h' := by
  cases hn with
  | empty => exact ⟨0, .empty⟩
  | red hl hr => exact ⟨_, .black hl hr⟩
  | black hl hr => exact ⟨_, .black hl hr⟩

theorem wellFormed_empty : WellFormed cmp (empty : LLRBNode κ ν) :=
  ⟨⟨0, .empty⟩, sorted_nil⟩

variable [Std.TransCmp cmp]

theorem inorder_insertKey (hw : WellFormed cmp root) :
    (insertKey cmp root aKey aValue).inorder = SortedAssoc.insert cmp aKey aValue root.inorder := by
  rw [insertKey, inorder_blacken, LLRBNode.inorder_insertKey hw.sorted]

/-- **`insertKey:withValue:` keeps the tree balanced and sorted.** -/
theorem WellFormed.insertKey (hw : WellFormed cmp root) :
    WellFormed cmp (insertKey cmp root aKey aValue) := by
  obtain ⟨h, hb⟩ := hw.balanced
  have hins : Inserted (root.insertKey cmp aKey aValue) .black h := insertKey_balanced hb
  obtain ⟨c, hc⟩ := hins
  refine ⟨balanced_blacken hc, ?_⟩
  rw [inorder_insertKey hw]
  exact hw.sorted.insert

/-- The loop of `get:` finds what the list has. -/
theorem get_eq_lookup (hs : Sorted cmp n.inorder) : get cmp k n = lookup cmp k n.inorder := by
  induction n with
  | empty => rfl
  | value k' v c l r ihl ihr =>
    obtain ⟨hl, hr, -, -, -⟩ := sorted_append.mp hs
    have hgt : cmp k k' ≠ .lt → ∀ x ∈ l.inorder, cmp k x.1 = .gt := hs.gt_of_mem (e := (k', v))
    rw [get, inorder]
    cases hk : cmp k k' with
    | lt => rw [lookup_append_left hk, ← ihl hl]
    | eq => rw [lookup_append_eq (hgt (by rw [hk]; decide)) hk]
    | gt => rw [lookup_append_gt (hgt (by rw [hk]; decide)) hk, ← ihr hr]

/-- `remove:` on a root, which no node above has prepared for it. -/
theorem remove_root (hb : Balanced root .black h) (hs : Sorted cmp root.inorder) :
    (∃ h', Balanced (blacken (root.remove cmp aKey)) .black h') ∧
      (root.remove cmp aKey).inorder = erase cmp aKey root.inorder := by
  have hprep : ∀ (m : LLRBNode κ ν) c h, Removable cmp aKey m c h → m.inorder = root.inorder →
      (∃ h', Balanced (blacken (m.remove cmp aKey)) .black h') ∧
        (m.remove cmp aKey).inorder = erase cmp aKey root.inorder := by
    intro m c h hm hin
    have hrem := remove_spec hm (hin ▸ hs)
    obtain ⟨c', hc', -⟩ := hrem.shrunk
    exact ⟨balanced_blacken hc', hin ▸ hrem.inorder⟩
  cases hb with
  | empty =>
    rw [remove]
    exact ⟨⟨0, .empty⟩, rfl⟩
  | @black k v l r c h hl hr =>
    cases c with
    | red => exact hprep _ _ _ (.ahead (.left hl hr)) rfl
    | black =>
      -- A red root would be prepared for the removal, and the colour does not matter.
      obtain ⟨hbal, hin⟩ := hprep (value k v .red l r) .red h (.ahead (.red (.red hl hr))) rfl
      have hflip : value k v .black l r = (value k v .red l r).recolor := rfl
      rw [hflip, remove_recolor, blacken_recolor, inorder_recolor]
      exact ⟨hbal, hin⟩

theorem inorder_removeKey (hw : WellFormed cmp root) :
    (removeKey cmp root aKey).inorder = erase cmp aKey root.inorder := by
  obtain ⟨h, hb⟩ := hw.balanced
  rw [removeKey, containsKey, get_eq_lookup hw.sorted]
  split_ifs with hk
  · rw [Bool.not_eq_true', Option.isSome_eq_false_iff, Option.isNone_iff_eq_none] at hk
    rw [erase_of_lookup_eq_none hk]
  · rw [inorder_blacken, (remove_root hb hw.sorted).2]

/-- **`removeKey:` keeps the tree balanced and sorted.** -/
theorem WellFormed.removeKey (hw : WellFormed cmp root) : WellFormed cmp (removeKey cmp root aKey) := by
  refine ⟨?_, ?_⟩
  · obtain ⟨h, hb⟩ := hw.balanced
    rw [FTreeSortedDictionary.removeKey]
    split_ifs
    · exact ⟨h, hb⟩
    · exact (remove_root hb hw.sorted).1
  · rw [inorder_removeKey hw]
    exact hw.sorted.erase

/-- `getPredecessorKey:` gives the last key before one that is there, and
throws where the key is not. -/
theorem predecessorFrom_eq (hs : Sorted cmp n.inorder) (rightParent : Option κ) :
    predecessorFrom cmp k rightParent n =
      if (lookup cmp k n.inorder).isSome then
        .ok ((predecessor cmp k n.inorder).or rightParent)
      else .error ⟨"NonexistentKey", "getPredecessorKey called with nonexistent key."⟩ := by
  induction n generalizing rightParent with
  | empty => rfl
  | value k' v c l r ihl ihr =>
    obtain ⟨hl, hr, -, -, -⟩ := sorted_append.mp hs
    have hgt : cmp k k' ≠ .lt → ∀ x ∈ l.inorder, cmp k x.1 = .gt := hs.gt_of_mem (e := (k', v))
    rw [predecessorFrom, inorder]
    cases hk : cmp k k' with
    | lt =>
      have hle : cmp k k' ≠ .gt := by rw [hk]; decide
      rw [lookup_append_left hk, hs.predecessor_append_le hle, ← ihl hl]
    | eq =>
      have hle : cmp k k' ≠ .gt := by rw [hk]; decide
      have hall := hgt (by rw [hk]; decide)
      rw [lookup_append_eq hall hk, hs.predecessor_append_le hle, predecessor_of_forall_gt hall,
        ← maxKey_eq]
      cases l with
      | empty => rfl
      | value kl vl cl ll lr =>
        obtain ⟨key, hkey⟩ : ∃ key, (value kl vl cl ll lr).maxKey = some key := by
          rw [maxKey_eq]
          cases hlast : (value kl vl cl ll lr).inorder.getLast? with
          | none => exact absurd (List.getLast?_eq_none_iff.mp hlast) (inorder_ne_nil rfl)
          | some e => exact ⟨e.1, rfl⟩
        rw [hkey]
        rfl
    | gt =>
      rw [lookup_append_gt (hgt (by rw [hk]; decide)) hk, predecessor_append_gt hk, ihr hr]
      cases predecessor cmp k r.inorder <;> rfl

end Operations

/-! ## Building from a dictionary -/

section Build

/-- An unordered `NSDictionary`, as its entries in the order of enumeration.
Sorting its keys and looking each one up is sorting its entries by key. The
sorted keys must ascend strictly. -/
def sortedEntries (cmp : κ → κ → Ordering) (dictionary : List (κ × ν)) :
    Except NSException (List (κ × ν)) :=
  let sorted := dictionary.mergeSort fun a b => cmp a.1 b.1 != .gt
  if sorted.IsChain fun a b => cmp a.1 b.1 = .lt then .ok sorted
  else .error ⟨"NSInvalidArgumentException",
    "Can't create FImmutableSortedDictionary with keys with same ordering!"⟩

/-- The entries from `startIndex` on, `length` of them or as many as there are,
as a tree of black nodes. -/
def buildBalancedTree (entries : List (κ × ν)) (startIndex length : Nat) : LLRBNode κ ν :=
  let length := min (entries.length - startIndex) length
  if length = 0 then .empty
  else if length = 1 then
    match entries[startIndex]? with
    | none => .empty
    | some (key, val) => .value key val .black .empty .empty
  else
    let middle := length / 2
    let left := buildBalancedTree entries startIndex middle
    let right := buildBalancedTree entries (startIndex + middle + 1) middle
    match entries[startIndex + middle]? with
    | none => .empty
    | some (key, val) => .value key val .black left right
termination_by length

/-- `buildPennant`: the entry before the last `chunkSize - 1` of the first
`index`, those as its right child, and on the left what is attached next. -/
def pennant (entries : List (κ × ν)) (color : LLRBColor) (chunkSize index : Nat)
    (below : LLRBNode κ ν) : LLRBNode κ ν :=
  let startIndex := index - chunkSize + 1
  match entries[index - chunkSize]? with
  | none => .empty
  | some (key, val) =>
    .value key val color below (buildBalancedTree entries startIndex (chunkSize - 1))

/-- The loop of `rootFrom12List:`, with the number of digits that are left and
the entries that are left. A 0 of `bits` is the digit 1, a 1 the digit 2. -/
def attachPennants (entries : List (κ × ν)) (bits : Nat) : Nat → Nat → LLRBNode κ ν
  | 0, _ => .empty
  | digit + 1, index =>
    let chunkSize := 2 ^ digit
    if !bits.testBit digit then
      pennant entries .black chunkSize index
        (attachPennants entries bits digit (index - chunkSize))
    else
      pennant entries .black chunkSize index
        (pennant entries .red chunkSize (index - chunkSize)
          (attachPennants entries bits digit (index - chunkSize - chunkSize)))

/-- `base1_2List_new` and `rootFrom12List:`. The source takes the logarithm in
floating point. -/
def rootFrom12List (entries : List (κ × ν)) : LLRBNode κ ν :=
  let count := Nat.log2 (entries.length + 1)
  let bits := (entries.length + 1) % 2 ^ count
  attachPennants entries bits count entries.length

def fromDictionary (cmp : κ → κ → Ordering) (dictionary : List (κ × ν)) :
    Except NSException (LLRBNode κ ν) :=
  (sortedEntries cmp dictionary).map rootFrom12List

/-! ### The tree that is built -/

variable {entries : List (κ × ν)} {j index : Nat}

theorem take_split {xs : List (κ × ν)} {m n : Nat} (h : m + n < xs.length) :
    xs.take (m + n + 1) = xs.take m ++ xs[m] :: (xs.drop (m + 1)).take n := by
  have hm : m < xs.length := by omega
  rw [Nat.add_assoc, List.take_add, List.drop_eq_getElem_cons hm, List.take_succ_cons]

/-- **A complete tree of black nodes**, where as many entries are left. -/
theorem buildBalancedTree_spec (startIndex : Nat) (h : startIndex + (2 ^ j - 1) ≤ entries.length) :
    Balanced (buildBalancedTree entries startIndex (2 ^ j - 1)) .black j ∧
      (buildBalancedTree entries startIndex (2 ^ j - 1)).inorder =
        (entries.drop startIndex).take (2 ^ j - 1) := by
  induction j generalizing startIndex with
  | zero =>
    rw [buildBalancedTree]
    simp
    exact ⟨.empty, rfl⟩
  | succ j ih =>
    have hpow : 2 ^ (j + 1) - 1 = 2 ^ j - 1 + (2 ^ j - 1) + 1 := by
      have := Nat.two_pow_pos j
      omega
    rw [hpow] at h ⊢
    generalize hm : 2 ^ j - 1 = m at h ih ⊢
    have hmin : min (entries.length - startIndex) (m + m + 1) = m + m + 1 := by omega
    have hhalf : (m + m + 1) / 2 = m := by omega
    have hmid : startIndex + m < entries.length := by omega
    have hget : entries[startIndex + m]? = some entries[startIndex + m] :=
      List.getElem?_eq_getElem hmid
    obtain ⟨hbl, hil⟩ := ih startIndex (by omega)
    obtain ⟨hbr, hir⟩ := ih (startIndex + m + 1) (by omega)
    have hdrop : m + m < (entries.drop startIndex).length := by
      rw [List.length_drop]
      omega
    rw [take_split hdrop, List.getElem_drop, List.drop_drop, buildBalancedTree]
    simp only [hmin, hhalf, hget]
    rw [if_neg (by omega)]
    split_ifs with hone
    · obtain rfl : m = 0 := by omega
      obtain rfl : j = 0 := by
        rcases Nat.eq_zero_or_pos j with hj | hj
        · exact hj
        · have := Nat.one_lt_two_pow (Nat.pos_iff_ne_zero.mp hj)
          omega
      have hget0 : entries[startIndex]? = some entries[startIndex] := hget
      simp only [hget0]
      exact ⟨.black .empty .empty, rfl⟩
    · refine ⟨.black hbl hbr, ?_⟩
      rw [inorder, hil, hir]
      rfl

/-- A pennant holds the last entries of those that are left, over what is below it. -/
theorem pennant_spec (color : LLRBColor) {below : LLRBNode κ ν} (hle : 2 ^ j ≤ index) (hlen : index ≤ entries.length)
    (hbelow : below.inorder = entries.take (index - 2 ^ j)) :
    (∃ key val right, pennant entries color (2 ^ j) index below = .value key val color below right ∧
      Balanced right .black j) ∧
    (pennant entries color (2 ^ j) index below).inorder = entries.take index := by
  have hpos := Nat.two_pow_pos j
  have hget : entries[index - 2 ^ j]? = some entries[index - 2 ^ j] :=
    List.getElem?_eq_getElem (by omega)
  have hspec : index - 2 ^ j + 1 + (2 ^ j - 1) ≤ entries.length := by omega
  obtain ⟨hb, hi⟩ := buildBalancedTree_spec _ hspec
  have hp : pennant entries color (2 ^ j) index below =
      .value entries[index - 2 ^ j].1 entries[index - 2 ^ j].2 color below
        (buildBalancedTree entries (index - 2 ^ j + 1) (2 ^ j - 1)) := by
    simp only [pennant, hget]
  rw [hp]
  refine ⟨⟨_, _, _, rfl, hb⟩, ?_⟩
  have hindex : index = index - 2 ^ j + (2 ^ j - 1) + 1 := by omega
  rw [inorder, hbelow, hi]
  conv => rhs; rw [hindex]
  exact (take_split (by omega)).symm

/-- **The pennants hold the first `index` entries, in a balanced tree**, when
`index` is what the digits that are left stand for. -/
theorem attachPennants_spec {bits : Nat} (index : Nat) (hindex : index = 2 ^ j - 1 + bits % 2 ^ j)
    (hlen : index ≤ entries.length) :
    Balanced (attachPennants entries bits j index) .black j ∧
      (attachPennants entries bits j index).inorder = entries.take index := by
  induction j generalizing index with
  | zero =>
    obtain rfl : index = 0 := by rw [hindex, Nat.pow_zero, Nat.mod_one]
    exact ⟨.empty, rfl⟩
  | succ j ih =>
    have hpos := Nat.two_pow_pos j
    have hpow : 2 ^ (j + 1) = 2 ^ j + 2 ^ j := by omega
    rw [Nat.mod_pow_succ] at hindex
    rw [attachPennants]
    cases hb : bits.testBit j with
    | false =>
      have hbit : bits / 2 ^ j % 2 = 0 := by
        rw [Nat.testBit_eq_decide_div_mod_eq, decide_eq_false_iff_not] at hb
        omega
      rw [hbit, Nat.mul_zero] at hindex
      obtain ⟨hbal, hin⟩ := ih (index - 2 ^ j) (by omega) (by omega)
      obtain ⟨⟨key, val, right, hp, hright⟩, hpin⟩ :=
        pennant_spec .black (by omega) hlen hin
      refine ⟨?_, hpin⟩
      simp only [Bool.not_false, if_true]
      rw [hp]
      exact .black hbal hright
    | true =>
      have hbit : bits / 2 ^ j % 2 = 1 := by
        rw [Nat.testBit_eq_decide_div_mod_eq, decide_eq_true_iff] at hb
        exact hb
      rw [hbit, Nat.mul_one] at hindex
      obtain ⟨hbal, hin⟩ := ih (index - 2 ^ j - 2 ^ j) (by omega) (by omega)
      obtain ⟨⟨keyR, valR, rightR, hpR, hrightR⟩, hpinR⟩ :=
        pennant_spec .red (by omega) (by omega) hin
      obtain ⟨⟨key, val, right, hp, hright⟩, hpin⟩ :=
        pennant_spec .black (by omega) hlen hpinR
      refine ⟨?_, hpin⟩
      simp only [Bool.not_true, Bool.false_eq_true, if_false]
      rw [hp, hpR]
      exact .black (.red hbal hrightR) hright

/-- **The tree that is built is balanced and holds the entries in their order.** -/
theorem rootFrom12List_spec (entries : List (κ × ν)) :
    (∃ h, Balanced (rootFrom12List entries) .black h) ∧
      (rootFrom12List entries).inorder = entries := by
  have hne : entries.length + 1 ≠ 0 := Nat.succ_ne_zero _
  have hle := Nat.log2_self_le hne
  have hlt := Nat.lt_log2_self (n := entries.length + 1)
  have hmod : (entries.length + 1) % 2 ^ (entries.length + 1).log2 =
      entries.length + 1 - 2 ^ (entries.length + 1).log2 := by
    rw [Nat.mod_eq_sub_mod hle, Nat.mod_eq_of_lt (by omega)]
  have hindex : entries.length = 2 ^ (entries.length + 1).log2 - 1 +
      (entries.length + 1) % 2 ^ (entries.length + 1).log2 % 2 ^ (entries.length + 1).log2 := by
    rw [Nat.mod_mod, hmod]
    omega
  obtain ⟨hbal, hin⟩ := attachPennants_spec entries.length hindex (Nat.le_refl _)
  exact ⟨⟨_, hbal⟩, hin.trans List.take_length⟩

/-! ### Sorting the keys -/

variable {cmp : κ → κ → Ordering} [Std.TransCmp cmp] {dictionary sorted : List (κ × ν)}

theorem sortedEntries_spec (h : sortedEntries cmp dictionary = .ok sorted) :
    Sorted cmp sorted ∧ sorted.Perm dictionary := by
  rw [sortedEntries] at h
  split_ifs at h with hchain
  obtain rfl := Except.ok.inj h
  have : IsTrans (κ × ν) fun a b => cmp a.1 b.1 = .lt := ⟨fun _ _ _ => Std.TransCmp.lt_trans⟩
  exact ⟨List.isChain_iff_pairwise.mp hchain, List.mergeSort_perm _ _⟩

/-- **The keys can be sorted exactly where no two of them compare as the same**;
else the exception is thrown. -/
theorem exists_sortedEntries_iff :
    (∃ sorted, sortedEntries cmp dictionary = .ok sorted) ↔
      dictionary.Pairwise fun a b => cmp a.1 b.1 ≠ .eq := by
  have hperm := List.mergeSort_perm dictionary fun a b => cmp a.1 b.1 != .gt
  have hsymm : ∀ {a b : κ × ν}, cmp a.1 b.1 ≠ .eq → cmp b.1 a.1 ≠ .eq :=
    fun h h' => h (Std.OrientedCmp.eq_symm h')
  constructor
  · rintro ⟨sorted, h⟩
    obtain ⟨hs, hp⟩ := sortedEntries_spec h
    refine (hp.pairwise_iff hsymm).mp (hs.imp ?_)
    intro a b hab
    rw [hab]
    decide
  · intro h
    have htrans : ∀ a b c : κ × ν, (cmp a.1 b.1 != .gt) = true → (cmp b.1 c.1 != .gt) = true →
        (cmp a.1 c.1 != .gt) = true := by
      intro a b c hab hbc
      rw [bne_iff_ne, ne_eq, ← Ordering.isLE_iff_ne_gt] at hab hbc ⊢
      exact Std.TransCmp.isLE_trans hab hbc
    have htotal : ∀ a b : κ × ν, ((cmp a.1 b.1 != .gt) || (cmp b.1 a.1 != .gt)) = true := by
      intro a b
      have hswap : cmp a.1 b.1 = (cmp b.1 a.1).swap := Std.OrientedCmp.eq_swap
      rw [hswap]
      cases cmp b.1 a.1 <;> rfl
    have hle := List.pairwise_mergeSort htrans htotal dictionary
    have hne := (hperm.pairwise_iff hsymm).mpr h
    refine ⟨_, if_pos ?_⟩
    refine (hle.imp₂ ?_ hne).isChain
    intro a b hab hne'
    rw [bne_iff_ne] at hab
    cases hcmp : cmp a.1 b.1 with
    | lt => rfl
    | eq => exact absurd hcmp hne'
    | gt => exact absurd hcmp hab

/-- What is thrown for keys that cannot be sorted. -/
theorem sortedEntries_eq_error (h : ¬ dictionary.Pairwise fun a b => cmp a.1 b.1 ≠ .eq) :
    sortedEntries cmp dictionary = .error ⟨"NSInvalidArgumentException",
      "Can't create FImmutableSortedDictionary with keys with same ordering!"⟩ := by
  rw [← exists_sortedEntries_iff, not_exists] at h
  exact if_neg fun hchain => h _ (if_pos hchain)

/-- **A dictionary is built, balanced and with the entries in the order of their
keys**, whatever order they are enumerated in, if no two keys compare as the same. -/
theorem fromDictionary_spec (h : dictionary.Pairwise fun a b => cmp a.1 b.1 ≠ .eq) :
    ∃ root, fromDictionary cmp dictionary = .ok root ∧ WellFormed cmp root ∧
      root.inorder.Perm dictionary := by
  obtain ⟨sorted, hsorted⟩ := exists_sortedEntries_iff.mpr h
  obtain ⟨hs, hp⟩ := sortedEntries_spec hsorted
  obtain ⟨hbal, hin⟩ := rootFrom12List_spec sorted
  refine ⟨rootFrom12List sorted, ?_, ⟨hbal, hin.symm ▸ hs⟩, hin.symm ▸ hp⟩
  rw [fromDictionary, hsorted]
  rfl

end Build

/-! ## The operations as a whole -/

section Whole

variable {cmp : κ → κ → Ordering} [Std.TransCmp cmp] {root : LLRBNode κ ν}

/-- **Insertion.** From a balanced tree in order, the next one, with the entry
in its place. -/
theorem insertKey_refines (hw : WellFormed cmp root) (aKey : κ) (aValue : ν) :
    WellFormed cmp (insertKey cmp root aKey aValue) ∧
      (insertKey cmp root aKey aValue).inorder = SortedAssoc.insert cmp aKey aValue root.inorder ∧
      ∀ k, get cmp k (insertKey cmp root aKey aValue) =
        if cmp k aKey = .eq then some aValue else get cmp k root := by
  have hw' : WellFormed cmp (insertKey cmp root aKey aValue) := hw.insertKey
  refine ⟨hw', inorder_insertKey hw, fun k => ?_⟩
  rw [get_eq_lookup hw'.sorted, get_eq_lookup hw.sorted, inorder_insertKey hw,
    lookup_insert hw.sorted]

/-- **Removal.** From a balanced tree in order, the next one, without the entry
and with all the others. -/
theorem removeKey_refines (hw : WellFormed cmp root) (aKey : κ) :
    WellFormed cmp (removeKey cmp root aKey) ∧
      (removeKey cmp root aKey).inorder = erase cmp aKey root.inorder ∧
      ∀ k, get cmp k (removeKey cmp root aKey) =
        if cmp k aKey = .eq then none else get cmp k root := by
  have hw' : WellFormed cmp (removeKey cmp root aKey) := hw.removeKey
  refine ⟨hw', inorder_removeKey hw, fun k => ?_⟩
  rw [get_eq_lookup hw'.sorted, get_eq_lookup hw.sorted, inorder_removeKey hw,
    lookup_erase hw.sorted]

/-- **Building.** No two keys compare as the same: a balanced tree of the
entries in order. Two of them do: the exception. -/
theorem fromDictionary_builds (cmp : κ → κ → Ordering) [Std.TransCmp cmp]
    (dictionary : List (κ × ν)) :
    ((dictionary.Pairwise fun a b => cmp a.1 b.1 ≠ .eq) →
      ∃ root, fromDictionary cmp dictionary = .ok root ∧ WellFormed cmp root ∧
        root.inorder.Perm dictionary) ∧
    (¬ (dictionary.Pairwise fun a b => cmp a.1 b.1 ≠ .eq) →
      fromDictionary cmp dictionary = .error ⟨"NSInvalidArgumentException",
        "Can't create FImmutableSortedDictionary with keys with same ordering!"⟩) := by
  exact ⟨fromDictionary_spec, fun h => congrArg (Except.map rootFrom12List) (sortedEntries_eq_error h)⟩

/-- The tree of the keys 1 to 4. -/
def four : LLRBNode ℕ Char := rootFrom12List [(1, 'a'), (2, 'b'), (3, 'c'), (4, 'd')]

theorem four_wellFormed : WellFormed compare four := by
  obtain ⟨hbal, hin⟩ := rootFrom12List_spec [(1, 'a'), (2, 'b'), (3, 'c'), (4, 'd')]
  refine ⟨hbal, ?_⟩
  rw [four, hin]
  unfold Sorted
  decide

theorem insertKey_refines_four : get compare 7 (insertKey compare four 7 'z') = some 'z' :=
  (insertKey_refines four_wellFormed 7 'z').2.2 7

theorem removeKey_refines_four :
    (removeKey compare four 2).inorder = [(1, 'a'), (3, 'c'), (4, 'd')] := by
  have hin : four.inorder = [(1, 'a'), (2, 'b'), (3, 'c'), (4, 'd')] := (rootFrom12List_spec _).2
  rw [(removeKey_refines four_wellFormed 2).2.1, hin]
  decide

theorem fromDictionary_builds_two :
    ∃ root : LLRBNode ℕ Char, fromDictionary compare [(2, 'b'), (1, 'a')] = .ok root ∧
      WellFormed compare root ∧ root.inorder.Perm [(2, 'b'), (1, 'a')] :=
  (fromDictionary_builds compare [(2, 'b'), (1, 'a')]).1 (by decide)

end Whole

end FTreeSortedDictionary
end TerpBuilder

/-
`FUtilities`: which keys are numbers, and the order of the children of a node.

A key of digits with at most one minus sign is compared as the number it
writes, then by its length; every other key comes after them, in the order of
its UTF-16 units. The order is a rank and so it is total and transitive, but
it does not tell all keys apart: `-0` and `00` are the number zero at the same
length. These pairs are the only ones, and a dictionary cannot be built from a
node that has both keys of one.
-/
import TerpBuilder.SortedDictionary
import Mathlib.Order.Compare
import Mathlib.Data.List.Pairwise

set_option autoImplicit false

namespace TerpBuilder

/-- An `NSString`, as its UTF-16 units. -/
abbrev NSString := List UInt16

/-- The units of a character: itself, or a surrogate pair. -/
def utf16 (c : Char) : NSString :=
  if c.toNat < 0x10000 then [UInt16.ofNat c.toNat]
  else [UInt16.ofNat (0xD800 + (c.toNat - 0x10000) / 0x400), UInt16.ofNat (0xDC00 + (c.toNat - 0x10000) % 0x400)]

def unichars (s : String) : NSString := s.toList.flatMap utf16

/-- The key of a child. `minName` and `maxName` are compared by address, so a
text is never one of them. -/
inductive Key where
  | minName
  | maxName
  | name (s : NSString)
  deriving DecidableEq

namespace FUtilities

/-- The loop of `tryParseStringToInt` over the digits. -/
def parseDigits (value : ℕ) : NSString → Option ℕ
  | [] => some value
  | c :: rest =>
    if c < 0x30 ∨ c > 0x39 then none
    else parseDigits (value * 10 + (c.toNat - 0x30)) rest

/-- The last check: a value that a 32-bit integer holds. -/
def int32 (value : ℤ) : Option ℤ :=
  if value < -2147483648 ∨ value > 2147483647 then none else some value

def tryParseStringToInt (str : NSString) : Option ℤ :=
  if str.length > 11 ∨ str.length = 0 then none
  else
    match str with
    | 0x2D :: digits =>
      if digits = [] then none
      else (parseDigits 0 digits).bind fun value => int32 (-value)
    | digits => (parseDigits 0 digits).bind fun value => int32 value

/-- Two texts, neither of which is `minName` or `maxName`. -/
def compareNames (a b : NSString) : Ordering :=
  match tryParseStringToInt a, tryParseStringToInt b with
  | some aAsInt, some bAsInt =>
    if aAsInt > bAsInt then .gt
    else if aAsInt < bAsInt then .lt
    else if a.length > b.length then .gt
    else if a.length < b.length then .lt
    else .eq
  | some _, none => .lt
  | none, some _ => .gt
  | none, none => compare a b

def compareKey (a b : Key) : Ordering :=
  if a = b then .eq
  else if a = .minName ∨ b = .maxName then .lt
  else if b = .minName ∨ a = .maxName then .gt
  else
    match a, b with
    | .name a, .name b => compareNames a b
    | _, _ => .eq  -- not reached

/-! ## The order -/

/-- Where a key stands: its kind, its number and its length, its units. -/
def kind : Key → ℕ
  | .minName => 0
  | .name s => if (tryParseStringToInt s).isSome then 1 else 2
  | .maxName => 3

def number : Key → ℤ
  | .name s => (tryParseStringToInt s).getD 0
  | _ => 0

def numberLength : Key → ℕ
  | .name s => if (tryParseStringToInt s).isSome then s.length else 0
  | _ => 0

def units : Key → NSString
  | .name s => if (tryParseStringToInt s).isSome then [] else s
  | _ => []

/-- The order of the ranks. -/
def compareRank : Key → Key → Ordering :=
  compareLex (compareOn kind)
    (compareLex (compareOn number) (compareLex (compareOn numberLength) (compareOn units)))

/-- A comparison written out, and then the next one. -/
theorem ite_eq_compare_then {α : Type} [LinearOrder α] (a b : α) (o : Ordering) :
    (if a > b then .gt else if a < b then .lt else o) = (compare a b).then o := by
  rcases lt_trichotomy a b with h | rfl | h
  · rw [if_neg (not_lt_of_gt h), if_pos h, compare_lt_iff_lt.mpr h]
    rfl
  · rw [if_neg (lt_irrefl a), if_neg (lt_irrefl a), compare_eq_iff_eq.mpr rfl]
    rfl
  · rw [if_pos h, compare_gt_iff_gt.mpr h]
    rfl

theorem compareNames_eq (a b : NSString) :
    compareNames a b = compareRank (.name a) (.name b) := by
  unfold compareNames
  rcases ha : tryParseStringToInt a with _ | m <;> rcases hb : tryParseStringToInt b with _ | n <;>
    simp only [compareRank, compareLex, compareOn, kind, number, numberLength, units, ha, hb,
      Option.isSome_none, Option.isSome_some, Bool.false_eq_true, if_true, if_false, Option.getD_none,
      Option.getD_some]
  · rfl
  · rfl
  · rfl
  · -- two numbers: the value first, the length next, and nothing after that
    rw [ite_eq_compare_then, ite_eq_compare_then]
    rfl

instance : Std.TransCmp compareRank := by
  unfold compareRank
  infer_instance

theorem compareRank_of_kind_lt {a b : Key} (h : kind a < kind b) : compareRank a b = .lt := by
  rw [compareRank, compareLex, compareOn, compare_lt_iff_lt.mpr h]
  rfl

theorem compareRank_of_kind_gt {a b : Key} (h : kind b < kind a) : compareRank a b = .gt := by
  rw [compareRank, compareLex, compareOn, compare_gt_iff_gt.mpr h]
  rfl

theorem kind_minName_lt (s : NSString) : kind .minName < kind (.name s) := by
  rw [kind, kind]
  split_ifs <;> decide

theorem kind_lt_maxName (s : NSString) : kind (.name s) < kind .maxName := by
  rw [kind, kind]
  split_ifs <;> decide

/-- **The comparison of keys is that of their ranks.** -/
theorem compareKey_eq (a b : Key) : compareKey a b = compareRank a b := by
  cases a with
  | minName =>
    cases b with
    | minName => rfl
    | maxName => rfl
    | name s => exact (compareRank_of_kind_lt (kind_minName_lt s)).symm
  | maxName =>
    cases b with
    | minName => rfl
    | maxName => rfl
    | name s => exact (compareRank_of_kind_gt (kind_lt_maxName s)).symm
  | name s =>
    cases b with
    | minName => exact (compareRank_of_kind_gt (kind_minName_lt s)).symm
    | maxName => exact (compareRank_of_kind_lt (kind_lt_maxName s)).symm
    | name t =>
      by_cases hself : Key.name s = .name t
      · rw [compareKey, if_pos hself, hself]
        exact Std.ReflCmp.compare_self.symm
      · rw [compareKey, if_neg hself, if_neg (by simp), if_neg (by simp)]
        exact compareNames_eq s t

/-- Texts that are too long for a number. -/
theorem compareKey_of_long {s t : NSString} (hs : 11 < s.length) (ht : 11 < t.length) :
    compareKey (.name s) (.name t) = compare s t := by
  have long : ∀ {s : NSString}, 11 < s.length → tryParseStringToInt s = none :=
    fun h => if_pos (Or.inl h)
  rw [compareKey_eq, ← compareNames_eq, compareNames, long hs, long ht]

theorem compareKey_eq_compareRank : compareKey = compareRank :=
  funext fun a => funext fun b => compareKey_eq a b

instance : Std.TransCmp compareKey := by
  rw [compareKey_eq_compareRank]
  infer_instance

/-! ## Keys that are not told apart -/

/-- Minus zero and zero, at the same length. -/
def Clash (s t : NSString) : Prop :=
  ∃ n, 1 ≤ n ∧ n ≤ 10 ∧ s = 0x2D :: List.replicate n 0x30 ∧ t = List.replicate (n + 1) 0x30

/-- What the digit loop accepts. -/
theorem digit_of_not {c : UInt16} (h : ¬ (c < 0x30 ∨ c > 0x39)) : 0x30 ≤ c.toNat ∧ c.toNat ≤ 0x39 := by
  rw [not_or, gt_iff_lt, UInt16.lt_iff_toNat_lt, UInt16.lt_iff_toNat_lt] at h
  have h30 : (0x30 : UInt16).toNat = 0x30 := rfl
  have h39 : (0x39 : UInt16).toNat = 0x39 := rfl
  omega

theorem parseDigits_cons_eq_some_iff {value n : ℕ} {c : UInt16} {s : NSString} :
    parseDigits value (c :: s) = some n ↔ (0x30 ≤ c.toNat ∧ c.toNat ≤ 0x39) ∧
      parseDigits (value * 10 + (c.toNat - 0x30)) s = some n := by
  rw [parseDigits]
  split_ifs with h
  · refine iff_of_false id ?_
    rintro ⟨⟨hlo, hhi⟩, -⟩
    rw [gt_iff_lt, UInt16.lt_iff_toNat_lt, UInt16.lt_iff_toNat_lt] at h
    have h30 : (0x30 : UInt16).toNat = 0x30 := rfl
    have h39 : (0x39 : UInt16).toNat = 0x39 := rfl
    omega
  · exact (and_iff_right (digit_of_not h)).symm

/-- Digits of the same length and value are the same digits. -/
theorem parseDigits_inj {s t : NSString} {x y n : ℕ} (hlen : s.length = t.length)
    (hs : parseDigits x s = some n) (ht : parseDigits y t = some n) : x = y ∧ s = t := by
  induction s generalizing t x y with
  | nil =>
    obtain rfl := List.eq_nil_of_length_eq_zero hlen.symm
    exact ⟨Option.some.inj (hs.trans ht.symm), rfl⟩
  | cons c s ih =>
    cases t with
    | nil => cases hlen
    | cons d t =>
      rw [parseDigits_cons_eq_some_iff] at hs ht
      obtain ⟨hxy, rfl⟩ := ih (Nat.succ.inj hlen) hs.2 ht.2
      have hcd : c.toNat = d.toNat := by omega
      have hx : x = y := by omega
      exact ⟨hx, by rw [UInt16.toNat_inj.mp hcd]⟩

/-- Zero is written with zeros alone. -/
theorem eq_replicate_of_parseDigits {s : NSString} {x : ℕ} (h : parseDigits x s = some 0) :
    x = 0 ∧ s = List.replicate s.length 0x30 := by
  induction s generalizing x with
  | nil => exact ⟨Option.some.inj h, rfl⟩
  | cons c s ih =>
    rw [parseDigits_cons_eq_some_iff] at h
    obtain ⟨hx, hs⟩ := ih h.2
    have hc : c = 0x30 := UInt16.toNat_inj.mp (show c.toNat = 0x30 by omega)
    refine ⟨by omega, ?_⟩
    rw [List.length_cons, List.replicate_succ, hc, ← hs]

theorem parseDigits_replicate (n : ℕ) : parseDigits 0 (List.replicate n 0x30) = some 0 := by
  induction n with
  | zero => rfl
  | succ n ih =>
    rw [List.replicate_succ, parseDigits_cons_eq_some_iff]
    exact ⟨by decide, ih⟩

theorem int32_eq_some {value n : ℤ} (h : int32 value = some n) : n = value := by
  rw [int32] at h
  split_ifs at h
  exact (Option.some.inj h).symm

/-- **What is a number**: up to eleven units, digits or a minus sign and digits. -/
theorem tryParseStringToInt_eq_some {s : NSString} {n : ℤ} (h : tryParseStringToInt s = some n) :
    (s.length ≤ 11 ∧ s ≠ []) ∧
      ((∃ digits, ∃ value : ℕ, s = 0x2D :: digits ∧ digits ≠ [] ∧
          parseDigits 0 digits = some value ∧ n = -value) ∨
        ∃ value : ℕ, parseDigits 0 s = some value ∧ n = value) := by
  unfold tryParseStringToInt at h
  split_ifs at h with hlen
  have hshort : s.length ≤ 11 ∧ s ≠ [] := by
    rw [← List.length_pos_iff]
    omega
  refine ⟨hshort, ?_⟩
  split at h
  · split_ifs at h with hnil
    obtain ⟨value, hvalue, hint⟩ := Option.bind_eq_some_iff.mp h
    exact Or.inl ⟨_, value, rfl, hnil, hvalue, int32_eq_some hint⟩
  · obtain ⟨value, hvalue, hint⟩ := Option.bind_eq_some_iff.mp h
    exact Or.inr ⟨value, hvalue, int32_eq_some hint⟩

/-- One number, one length: the same text, or the two zeros. -/
theorem eq_or_clash {s t : NSString} {n : ℤ} (hs : tryParseStringToInt s = some n)
    (ht : tryParseStringToInt t = some n) (hlen : s.length = t.length) :
    s = t ∨ Clash s t ∨ Clash t s := by
  have zeros : ∀ {digits t : NSString} {v w : ℕ}, (0x2D :: digits).length = t.length → t.length ≤ 11 →
      digits ≠ [] → parseDigits 0 digits = some v → parseDigits 0 t = some w → -(v : ℤ) = w →
      Clash (0x2D :: digits) t := by
    intro digits t v w hlen hle hne hv hw hvw
    obtain rfl : v = 0 := by omega
    obtain rfl : w = 0 := by omega
    have hpos := List.length_pos_iff.mpr hne
    rw [List.length_cons] at hlen
    refine ⟨digits.length, by omega, by omega, ?_, ?_⟩
    · rw [← (eq_replicate_of_parseDigits hv).2]
    · rw [hlen]
      exact (eq_replicate_of_parseDigits hw).2
  obtain ⟨⟨hsle, -⟩, hs⟩ := tryParseStringToInt_eq_some hs
  obtain ⟨⟨htle, -⟩, ht⟩ := tryParseStringToInt_eq_some ht
  rcases hs with ⟨ds, v, rfl, hds, hv, rfl⟩ | ⟨v, hv, rfl⟩
  · rcases ht with ⟨dt, w, rfl, hdt, hw, hvw⟩ | ⟨w, hw, hvw⟩
    · obtain rfl : v = w := by omega
      exact Or.inl (by rw [(parseDigits_inj (Nat.succ.inj hlen) hv hw).2])
    · exact Or.inr (Or.inl (zeros hlen htle hds hv hw hvw))
  · rcases ht with ⟨dt, w, rfl, hdt, hw, hvw⟩ | ⟨w, hw, hvw⟩
    · exact Or.inr (Or.inr (zeros hlen.symm hsle hdt hw hv hvw.symm))
    · obtain rfl : v = w := by omega
      exact Or.inl (parseDigits_inj hlen hv hw).2

theorem Clash.parse {s t : NSString} (h : Clash s t) :
    tryParseStringToInt s = some 0 ∧ tryParseStringToInt t = some 0 ∧ s.length = t.length := by
  obtain ⟨n, hpos, hle, rfl, rfl⟩ := h
  refine ⟨?_, ?_, ?_⟩
  · have hne : List.replicate n (0x30 : UInt16) ≠ [] := List.ne_nil_of_length_pos (by simp; omega)
    rw [tryParseStringToInt, if_neg (by simp; omega), if_neg hne, parseDigits_replicate]
    rfl
  · rw [tryParseStringToInt, if_neg (by simp; omega), parseDigits_replicate]
    · rfl
    · -- a zero is no minus sign
      intro digits h
      rw [List.replicate_succ, List.cons.injEq] at h
      exact absurd h.1 (by decide)
  · rw [List.length_cons, List.length_replicate, List.length_replicate]

/-- Numbers that compare as the same. -/
theorem compareNames_eq_eq_iff (s t : NSString) :
    compareNames s t = .eq ↔ s = t ∨ Clash s t ∨ Clash t s := by
  constructor
  · intro h
    rw [compareNames_eq, compareRank, compareLex, Ordering.then_eq_eq, compareLex, Ordering.then_eq_eq,
      compareLex, Ordering.then_eq_eq] at h
    obtain ⟨hkind, hnumber, hlen, hunits⟩ := h
    simp only [compareOn, Std.LawfulEqCmp.compare_eq_iff_eq] at hkind hnumber hlen hunits
    rcases hs : tryParseStringToInt s with _ | m <;> rcases ht : tryParseStringToInt t with _ | n <;>
      simp only [kind, number, numberLength, units, hs, ht, Option.isSome_none, Option.isSome_some,
        Bool.false_eq_true, if_true, if_false, Option.getD_some] at hkind hnumber hlen hunits
    · exact Or.inl hunits
    · cases hkind
    · cases hkind
    · subst hnumber
      exact eq_or_clash hs ht hlen
  · have same : ∀ {s t : NSString}, Clash s t → compareNames s t = .eq := by
      intro s t h
      obtain ⟨hs, ht, hlen⟩ := h.parse
      simp [compareNames, hs, ht, hlen]
    rintro (rfl | h | h)
    · rw [compareNames_eq]
      exact Std.ReflCmp.compare_self
    · exact same h
    · rw [compareNames_eq]
      exact Std.OrientedCmp.eq_symm (compareNames_eq t s ▸ same h)

/-- **Which keys are not told apart**: a number of zeros with a minus sign, and
the zeros of the same length. -/
theorem compareKey_eq_eq_iff (a b : Key) :
    compareKey a b = .eq ↔
      a = b ∨ ∃ s t, a = .name s ∧ b = .name t ∧ (Clash s t ∨ Clash t s) := by
  cases a with
  | minName => cases b <;> simp [compareKey]
  | maxName => cases b <;> simp [compareKey]
  | name s =>
    cases b with
    | minName => simp [compareKey]
    | maxName => simp [compareKey]
    | name t =>
      rw [compareKey_eq, ← compareNames_eq, compareNames_eq_eq_iff, Key.name.injEq]
      simp

/-! ## Names that are told apart -/

/-- A text that is not minus zero. -/
structure Name where
  text : NSString
  told : ¬ (text.head? = some 0x2D ∧ tryParseStringToInt text = some 0)
  deriving DecidableEq

/-- `keyComparator` on these names. -/
def Name.compareKey (a b : Name) : Ordering := FUtilities.compareKey (.name a.text) (.name b.text)

theorem Name.not_clash (a : Name) (t : NSString) : ¬ Clash a.text t := by
  intro h
  refine a.told ⟨?_, h.parse.1⟩
  obtain ⟨n, -, -, htext, -⟩ := h
  rw [htext, List.head?_cons]

instance : Std.TransCmp Name.compareKey where
  eq_swap {a b} := by
    show FUtilities.compareKey (.name a.text) (.name b.text) = _
    exact Std.OrientedCmp.eq_swap
  isLE_trans {a b c} hab hbc := by
    change (FUtilities.compareKey (.name a.text) (.name b.text)).isLE at hab
    change (FUtilities.compareKey (.name b.text) (.name c.text)).isLE at hbc
    show (FUtilities.compareKey (.name a.text) (.name c.text)).isLE
    exact Std.TransCmp.isLE_trans hab hbc

/-- Of these names the comparison of keys tells all apart. -/
instance : Std.LawfulEqCmp Name.compareKey where
  compare_self := Std.ReflCmp.compare_self
  eq_of_compare {a b} h := by
    rcases (compareKey_eq_eq_iff (.name a.text) (.name b.text)).mp h with heq | ⟨s, t, hs, ht, hclash | hclash⟩
    · cases a
      cases b
      cases heq
      rfl
    · obtain rfl := Key.name.inj hs
      exact absurd hclash (a.not_clash t)
    · obtain rfl := Key.name.inj ht
      exact absurd hclash (b.not_clash s)

/-- `stringComparator` on names without combining marks: the units decide. -/
def Name.compareUnits : Name → Name → Ordering := compareOn Name.text

instance : Std.TransCmp Name.compareUnits := inferInstanceAs (Std.TransCmp (compareOn Name.text))

instance : Std.LawfulEqCmp Name.compareUnits where
  compare_self := Std.ReflCmp.compare_self
  eq_of_compare {a b} h := by
    have htext : a.text = b.text := Std.LawfulEqCmp.eq_of_compare h
    cases a
    cases b
    cases htext
    rfl

end FUtilities

/-! ## The children of a node -/

namespace FImmutableSortedDictionary

open FUtilities

variable {ν : Type}

/-- Two of the keys are a number zero with and without its minus sign. -/
def Clashing (keys : List Key) : Prop := ∃ s t, Clash s t ∧ .name s ∈ keys ∧ .name t ∈ keys

theorem pairwise_compareKey_iff {children : List (Key × ν)} (hkeys : (children.map Prod.fst).Nodup) :
    (children.Pairwise fun a b => compareKey a.1 b.1 ≠ .eq) ↔ ¬ Clashing (children.map Prod.fst) := by
  have hmap : ((children.map Prod.fst).Pairwise fun a b => compareKey a b ≠ .eq) ↔
      children.Pairwise fun a b => compareKey a.1 b.1 ≠ .eq := List.pairwise_map
  rw [← hmap]
  have : Std.Symm fun a b : Key => compareKey a b ≠ .eq :=
    ⟨fun a b h h' => h (Std.OrientedCmp.eq_symm h')⟩
  constructor
  · rintro hpair ⟨s, t, hclash, hs, ht⟩
    have hne : Key.name s ≠ .name t := by
      rintro heq
      obtain ⟨n, -, -, rfl, rfl⟩ := hclash
      rw [Key.name.injEq, List.replicate_succ, List.cons.injEq] at heq
      exact absurd heq.1 (by decide)
    exact hpair.forall hs ht hne ((compareKey_eq_eq_iff _ _).mpr (Or.inr ⟨s, t, rfl, rfl, Or.inl hclash⟩))
  · intro hnot
    refine hkeys.imp_of_mem ?_
    intro a b ha hb hne heq
    rcases (compareKey_eq_eq_iff a b).mp heq with rfl | ⟨s, t, rfl, rfl, hclash | hclash⟩
    · exact hne rfl
    · exact hnot ⟨s, t, hclash, ha, hb⟩
    · exact hnot ⟨t, s, hclash, hb, ha⟩

/-- **Which children a node can have.** No two of the keys are the same number
zero: the dictionary is built, with every child in the order of the keys. Two
of them are: the exception is thrown. -/
theorem fromDictionary_keyComparator (children : List (Key × ν))
    (hkeys : (children.map Prod.fst).Nodup) :
    (¬ Clashing (children.map Prod.fst) →
      ∃ d, fromDictionary compareKey children = .ok d ∧ WellFormed compareKey d ∧
        d.entries.Perm children) ∧
    (Clashing (children.map Prod.fst) →
      fromDictionary compareKey children = .error ⟨"NSInvalidArgumentException",
        "Can't create FImmutableSortedDictionary with keys with same ordering!"⟩) := by
  refine ⟨fun h => ?_, fun h => ?_⟩
  · exact fromDictionary_spec ((pairwise_compareKey_iff hkeys).mpr h)
  · apply fromDictionary_eq_error
    rw [pairwise_compareKey_iff hkeys, not_not]
    exact h

/-- The children `-0` and `00`. -/
theorem fromDictionary_keyComparator_zeros :
    fromDictionary compareKey [(.name [0x2D, 0x30], 1), (.name [0x30, 0x30], 2)] =
      .error ⟨"NSInvalidArgumentException",
        "Can't create FImmutableSortedDictionary with keys with same ordering!"⟩ :=
  (fromDictionary_keyComparator _ (by decide)).2
    ⟨_, _, ⟨1, by decide, by decide, rfl, rfl⟩, by decide, by decide⟩

end FImmutableSortedDictionary

end TerpBuilder

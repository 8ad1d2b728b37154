/-
The string functions of Swift and Foundation that the application uses, on lists
of characters.
-/
import Mathlib.Data.List.Basic
import Mathlib.Tactic.Linarith

set_option autoImplicit false

namespace TerpBuilder

/-! ## Splitting -/

/-- The pieces between the separators, without the empty ones. This is Swift's
`split(separator:)`, and what `FPath` keeps of `componentsSeparatedByString:`. -/
def pieces (sep : Char) (s : List Char) : List (List Char) := (s.splitOn sep).filter (· ≠ [])

theorem pieces_of_not_mem {sep : Char} {s : List Char} (h : sep ∉ s) (hs : s ≠ []) :
    pieces sep s = [s] := by
  rw [pieces, List.splitOn_eq_singleton h, List.filter_singleton, decide_eq_true hs]
  rfl

theorem pieces_append_cons {sep : Char} {s : List Char} (h : sep ∉ s) (hs : s ≠ []) (t : List Char) :
    pieces sep (s ++ sep :: t) = s :: pieces sep t := by
  rw [pieces, List.splitOn_append_cons_self, List.filter_append, ← pieces, ← pieces,
    pieces_of_not_mem h hs]
  rfl

example : pieces '/' "CMSC131//B/".toList = ["CMSC131".toList, "B".toList] := by decide
example : pieces '/' "/".toList = [] := by decide

/-! ## `Int` -/

/-- The values of Swift's `Int`. -/
def InInt (n : ℤ) : Prop := -2 ^ 63 ≤ n ∧ n < 2 ^ 63

instance : DecidablePred InInt := fun _ => inferInstanceAs (Decidable (_ ∧ _))

/-- `a + b`, which traps on overflow. -/
def addInt (a b : ℤ) : Option ℤ := if InInt (a + b) then some (a + b) else none

/-- The number a non-empty string of ASCII digits denotes. -/
def readNat (s : List Char) : Option ℕ :=
  if s ≠ [] ∧ s.all Char.isDigit then
    some (s.foldl (fun n c => 10 * n + (c.toNat - 48)) 0)
  else none

def readSigned : List Char → Option ℤ
  | '-' :: s => (readNat s).map fun n => -Int.ofNat n
  | '+' :: s => (readNat s).map Int.ofNat
  | s => (readNat s).map Int.ofNat

/-- `Int(s)`: an optional sign and digits, nil for anything else and for numbers
an `Int` cannot hold. -/
def readInt (s : List Char) : Option ℤ := (readSigned s).filter fun n => InInt n

theorem readInt_inInt {s : List Char} {n : ℤ} (h : readInt s = some n) : InInt n :=
  of_decide_eq_true (Option.filter_eq_some_iff.mp h).2

example : readInt "09".toList = some 9 := by decide
example : readInt "".toList = none := by decide
example : readInt "9223372036854775808".toList = none := by decide

/-- Two digits make at most ninety-nine. -/
theorem readNat_lt {s : List Char} (hs : s.length ≤ 2) {n : ℕ} (h : readNat s = some n) : n < 100 := by
  unfold readNat at h
  split_ifs at h with hd
  obtain rfl := Option.some.inj h
  have hdigit : ∀ c : Char, c.isDigit = true → c.toNat - 48 ≤ 9 := by
    intro c hc
    simp only [Char.isDigit, Bool.and_eq_true, decide_eq_true_eq] at hc
    have h57 : c.toNat ≤ 57 := hc.2
    omega
  rcases s with _ | ⟨c, _ | ⟨c', _ | ⟨c'', s⟩⟩⟩
  · exact absurd rfl hd.1
  · have hc := hdigit c (by simpa using hd.2)
    simp only [List.foldl_cons, List.foldl_nil]
    omega
  · have hall : c.isDigit = true ∧ c'.isDigit = true := by simpa using hd.2
    have hc := hdigit c hall.1
    have hc' := hdigit c' hall.2
    simp only [List.foldl_cons, List.foldl_nil]
    omega
  · simp at hs

/-- A sign, or none, and a number behind it. -/
theorem readSigned_eq_some {s : List Char} {n : ℤ} (h : readSigned s = some n) :
    ∃ ds k, ds.length ≤ s.length ∧ readNat ds = some k ∧ (n = k ∨ n = -k) := by
  unfold readSigned at h
  split at h
  case h_1 ds =>
      obtain ⟨k, hk, rfl⟩ := Option.map_eq_some_iff.mp h
      exact ⟨ds, k, Nat.le_succ _, hk, Or.inr rfl⟩
  case h_2 ds =>
      obtain ⟨k, hk, rfl⟩ := Option.map_eq_some_iff.mp h
      exact ⟨ds, k, Nat.le_succ _, hk, Or.inl rfl⟩
  case h_3 =>
      obtain ⟨k, hk, rfl⟩ := Option.map_eq_some_iff.mp h
      exact ⟨s, k, le_rfl, hk, Or.inl rfl⟩

/-- A number of at most two characters is small either way. -/
theorem readInt_le {s : List Char} (hs : s.length ≤ 2) {n : ℤ} (h : readInt s = some n) :
    -100 < n ∧ n < 100 := by
  obtain ⟨ds, k, hlen, hk, hn⟩ := readSigned_eq_some (Option.filter_eq_some_iff.mp h).1
  have hk100 : k < 100 := readNat_lt (hlen.trans hs) hk
  omega

end TerpBuilder

/-
Numerals of a fixed length, most significant digit first.

Two lists of digits of the same length are compared digit by digit as their
values are; the last digits of a number are what repeated division leaves; and
one more than a numeral is found from the right, where a digit that cannot grow
becomes zero and carries; what is carried out of the first digit is lost. The
values are Mathlib's, which reads its digits from the other end.
-/
import Mathlib.Data.Nat.Digits.Lemmas
import Mathlib.Order.Compare

set_option autoImplicit false

namespace TerpBuilder.Numeral

variable {b : ℕ} {ds es : List ℕ}

/-- The number that is written. -/
def value (b : ℕ) (ds : List ℕ) : ℕ := Nat.ofDigits b ds.reverse

@[simp] theorem value_nil : value b [] = 0 := rfl

theorem value_append : value b (ds ++ es) = value b ds * b ^ es.length + value b es := by
  rw [value, List.reverse_append, Nat.ofDigits_append, List.length_reverse, value, value]
  ring

theorem value_singleton (d : ℕ) : value b [d] = d := Nat.ofDigits_singleton

theorem value_cons (d : ℕ) : value b (d :: ds) = d * b ^ ds.length + value b ds := by
  rw [← List.singleton_append, value_append, value_singleton]

theorem value_lt (hb : 1 < b) (hd : ∀ d ∈ ds, d < b) : value b ds < b ^ ds.length := by
  rw [value, ← List.length_reverse]
  exact Nat.ofDigits_lt_base_pow_length hb fun d h => hd d (List.mem_reverse.mp h)

/-- **Numerals are compared as numbers.** -/
theorem compare_eq (hb : 1 < b) (hlen : ds.length = es.length) (hd : ∀ d ∈ ds, d < b)
    (he : ∀ e ∈ es, e < b) : compare ds es = compare (value b ds) (value b es) := by
  induction ds generalizing es with
  | nil =>
    obtain rfl := List.eq_nil_of_length_eq_zero hlen.symm
    rfl
  | cons d ds ih =>
    cases es with
    | nil => cases hlen
    | cons e es =>
      have hlen' : ds.length = es.length := Nat.succ.inj hlen
      have hd' := value_lt hb fun x hx => hd x (List.mem_cons_of_mem d hx)
      have he' := value_lt hb fun x hx => he x (List.mem_cons_of_mem e hx)
      rw [List.compare_cons_cons, value_cons, value_cons, hlen',
        ih hlen' (fun x hx => hd x (List.mem_cons_of_mem d hx)) fun x hx => he x (List.mem_cons_of_mem e hx)]
      rw [hlen'] at hd'
      rcases lt_trichotomy d e with h | rfl | h
      · -- the first digit decides
        have hmul : (d + 1) * b ^ es.length ≤ e * b ^ es.length := Nat.mul_le_mul_right _ h
        rw [Nat.succ_mul] at hmul
        have hlt : d * b ^ es.length + value b ds < e * b ^ es.length + value b es := by omega
        rw [compare_lt_iff_lt.mpr h, compare_lt_iff_lt.mpr hlt]
        rfl
      · rw [compare_eq_iff_eq.mpr rfl, Nat.compare_eq_ite_lt, Nat.compare_eq_ite_lt]
        simp only [Nat.add_lt_add_iff_left]
        rfl
      · have hmul : (e + 1) * b ^ es.length ≤ d * b ^ es.length := Nat.mul_le_mul_right _ h
        rw [Nat.succ_mul] at hmul
        have hgt : e * b ^ es.length + value b es < d * b ^ es.length + value b ds := by omega
        rw [compare_gt_iff_gt.mpr h, compare_gt_iff_gt.mpr hgt]
        rfl

/-! ## The last digits of a number -/

/-- The last `width` digits of `n`. -/
def lastDigits (b : ℕ) : ℕ → ℕ → List ℕ
  | 0, _ => []
  | width + 1, n => lastDigits b width (n / b) ++ [n % b]

@[simp] theorem length_lastDigits (width n : ℕ) : (lastDigits b width n).length = width := by
  induction width generalizing n with
  | zero => rfl
  | succ width ih => rw [lastDigits, List.length_append, ih, List.length_singleton]

theorem lt_of_mem_lastDigits (hb : 0 < b) {width n d : ℕ} (h : d ∈ lastDigits b width n) : d < b := by
  induction width generalizing n with
  | zero => cases h
  | succ width ih =>
    rcases List.mem_append.mp h with h | h
    · exact ih h
    · rw [List.mem_singleton.mp h]
      exact Nat.mod_lt _ hb

theorem value_lastDigits (width n : ℕ) : value b (lastDigits b width n) = n % b ^ width := by
  induction width generalizing n with
  | zero => rw [lastDigits, value_nil, Nat.pow_zero, Nat.mod_one]
  | succ width ih =>
    rw [lastDigits, value_append, ih, value_singleton, List.length_singleton, Nat.pow_one, Nat.pow_succ',
      Nat.mod_mul]
    ring

/-! ## One more -/

/-- Adds one to a numeral that is given from the right. Of digits none of which can
grow only zeros are left. -/
def carry (b : ℕ) : List ℕ → List ℕ
  | [] => []
  | d :: ds => if d + 1 = b then 0 :: carry b ds else (d + 1) :: ds

@[simp] theorem length_carry (ds : List ℕ) : (carry b ds).length = ds.length := by
  induction ds with
  | nil => rfl
  | cons d ds ih =>
    rw [carry]
    split_ifs
    · rw [List.length_cons, ih, List.length_cons]
    · rfl

theorem lt_of_mem_carry (hb : 0 < b) (hd : ∀ d ∈ ds, d < b) : ∀ d ∈ carry b ds, d < b := by
  induction ds with
  | nil => exact hd
  | cons d ds ih =>
    rw [List.forall_mem_cons] at hd
    rw [carry]
    split_ifs with hmax
    · exact List.forall_mem_cons.mpr ⟨hb, ih hd.2⟩
    · exact List.forall_mem_cons.mpr ⟨Nat.lt_of_le_of_ne hd.1 hmax, hd.2⟩

/-- There is room for one more exactly if some digit can grow. -/
theorem ofDigits_add_one_lt_iff (hb : 1 < b) (hd : ∀ d ∈ ds, d < b) :
    Nat.ofDigits b ds + 1 < b ^ ds.length ↔ ∃ d ∈ ds, d + 1 ≠ b := by
  induction ds with
  | nil => simp
  | cons d ds ih =>
    rw [List.forall_mem_cons] at hd
    have hlt := Nat.ofDigits_lt_base_pow_length hb hd.2
    rw [List.exists_mem_cons_iff, ← ih hd.2, Nat.ofDigits_cons, List.length_cons, Nat.pow_succ']
    by_cases hmax : d + 1 = b
    · -- the last digit is full, and the others decide
      have hsum : d + b * Nat.ofDigits b ds + 1 = b * (Nat.ofDigits b ds + 1) := by
        rw [Nat.mul_add, ← hmax]
        ring
      rw [hsum, Nat.mul_lt_mul_left (Nat.zero_lt_of_lt hb)]
      simp [hmax]
    · have hmul : b * (Nat.ofDigits b ds + 1) ≤ b * b ^ ds.length := Nat.mul_le_mul_left b hlt
      rw [Nat.mul_add, Nat.mul_one] at hmul
      have hsmall : d + b * Nat.ofDigits b ds + 1 < b * b ^ ds.length := by omega
      exact iff_of_true hsmall (Or.inl hmax)

/-- **One more**, of the numbers that have so many digits. -/
theorem ofDigits_carry (hb : 1 < b) (hd : ∀ d ∈ ds, d < b) :
    Nat.ofDigits b (carry b ds) = (Nat.ofDigits b ds + 1) % b ^ ds.length := by
  induction ds with
  | nil => exact (Nat.mod_one _).symm
  | cons d ds ih =>
    have hroom := ofDigits_add_one_lt_iff hb hd
    rw [List.forall_mem_cons] at hd
    rw [carry]
    split_ifs with hmax
    · rw [Nat.ofDigits_cons, ih hd.2, Nat.ofDigits_cons, List.length_cons, Nat.pow_succ', Nat.zero_add,
        ← Nat.mul_mod_mul_left]
      congr 1
      rw [Nat.mul_add, ← hmax]
      ring
    · rw [Nat.mod_eq_of_lt (hroom.mpr ⟨d, List.mem_cons_self, hmax⟩), Nat.ofDigits_cons, Nat.ofDigits_cons]
      ring

end TerpBuilder.Numeral

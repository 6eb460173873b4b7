import Mathlib
import MiniC.Proofs.Decimal.Integers
import MiniC.Stack.Value

/-!
# Arithmetic is exact or refused

Integers never wrap around and never become floating-point numbers: a result is the integer that
mathematics gives, or the operation is refused since that integer has more than 64 bits. Of all
quotients of 64-bit integers only one has more. Texts can be added to anything, and used in no other
operation.
-/

namespace MiniC

set_option autoImplicit false

namespace Word

theorem toInt_ne_zero {w : Int64} (h : w ≠ 0) : w.toInt ≠ 0 := by
  rw [← Int64.toInt_zero]
  exact mt Int64.toInt_inj.mp h

/-- A quotient is no larger than what is divided, and half as large at most unless it is divided by
one or its negative. So it fits, but for the least integer with its sign changed. -/
theorem fits_tdiv_iff {a b : Int} (ha : Fits a) (hb : b ≠ 0) :
    Fits (a.tdiv b) ↔ ¬ (a = -2 ^ 63 ∧ b = -1) := by
  unfold Fits at *
  by_cases hneg : b = -1
  · subst hneg
    rw [Int.tdiv_neg, Int.tdiv_one]
    omega
  by_cases hone : b = 1
  · subst hone
    rw [Int.tdiv_one]
    omega
  · have hhalf : (a.tdiv b).natAbs ≤ a.natAbs / 2 := by
      rw [Int.natAbs_tdiv]
      exact Nat.div_le_div_left (by omega) (by omega)
    omega

end Word

namespace Stack

/-- `q` is the quotient of `a` and `b`, cut toward zero: what remains is smaller than `b` and has the
sign of `a`. -/
def Truncates (a b q : Int) : Prop :=
  ∃ r, a = q * b + r ∧ r.natAbs < b.natAbs ∧ (r = 0 ∨ r.sign = a.sign)

theorem truncates_tdiv (a : Int) {b : Int} (hb : b ≠ 0) : Truncates a b (a.tdiv b) := by
  refine ⟨a.tmod b, ?_, ?_, ?_⟩
  · rw [Int.mul_comm, Int.mul_tdiv_add_tmod]
  · rw [Int.natAbs_tmod]
    exact Nat.mod_lt _ (Int.natAbs_pos.mpr hb)
  · have hsign := Int.sign_tmod a b
    split at hsign
    · exact .inl (Int.sign_eq_zero_iff_zero.mp hsign)
    · exact .inr hsign

/-- The result is the integer `n`, or the operation is refused because `n` has too many bits. -/
def Checked (operation : Operation) (n : Int) (result : Except ValueError Value) : Prop :=
  (Word.Fits n → ∃ w : Int64, result = .ok (.int w) ∧ w.toInt = n) ∧
  (¬ Word.Fits n → result = .error (.overflow operation))

theorem Checked.ok_or_overflow {operation : Operation} {n : Int}
    {result : Except ValueError Value} (h : Checked operation n result) :
    (∃ w, result = .ok (.int w)) ∨ result = .error (.overflow operation) := by
  by_cases hfits : Word.Fits n
  · obtain ⟨w, hw, _⟩ := h.1 hfits
    exact .inl ⟨w, hw⟩
  · exact .inr (h.2 hfits)

namespace Value

theorem negate_checked (a : Int64) : Checked .negate (-a.toInt) (negate (.int a)) := by
  constructor
  · intro h
    obtain ⟨w, hw, heq⟩ := Word.ofInt?_of_fits h
    exact ⟨w, by rw [negate, hw], heq⟩
  · intro h
    rw [negate, Word.ofInt?_of_not_fits h]

theorem arith_checked {op : Arith} {a b : Int64} (h : ¬ (op = .divide ∧ b = 0)) :
    Checked (.arith op) (op.exact a.toInt b.toInt) (arith op (.int a) (.int b)) := by
  rw [arith, intArith, if_neg h]
  constructor
  · intro hfits
    obtain ⟨w, hw, heq⟩ := Word.ofInt?_of_fits hfits
    exact ⟨w, by rw [hw], heq⟩
  · intro hfits
    rw [Word.ofInt?_of_not_fits hfits]

theorem divide_zero (a : Int64) : arith .divide (.int a) (.int 0) = .error .divisionByZero := by
  rw [arith, intArith, if_pos ⟨rfl, rfl⟩]

/-- A divisor is zero, or it changes the sign of the least integer, or it has a quotient. -/
theorem divide_cases (a b : Int64) :
    (b = 0 ∧ arith .divide (.int a) (.int b) = .error .divisionByZero) ∨
    (b ≠ 0 ∧ (a.toInt = -2 ^ 63 ∧ b.toInt = -1) ∧
      arith .divide (.int a) (.int b) = .error (.overflow (.arith .divide))) ∨
    (b ≠ 0 ∧ ¬ (a.toInt = -2 ^ 63 ∧ b.toInt = -1) ∧
      ∃ q : Int64, arith .divide (.int a) (.int b) = .ok (.int q) ∧
        Truncates a.toInt b.toInt q.toInt) := by
  by_cases hb : b = 0
  · subst hb
    exact .inl ⟨rfl, divide_zero a⟩
  have hzero := Word.toInt_ne_zero hb
  have hfits := Word.fits_tdiv_iff (Word.fits_toInt a) hzero
  obtain ⟨hexact, hrefused⟩ := @arith_checked .divide a b (by simp [hb])
  by_cases hleast : a.toInt = -2 ^ 63 ∧ b.toInt = -1
  · have hover : ¬ Word.Fits (a.toInt.tdiv b.toInt) := fun h => hfits.mp h hleast
    exact .inr (.inl ⟨hb, hleast, hrefused hover⟩)
  · obtain ⟨q, hq, heq⟩ := hexact (hfits.mpr hleast)
    have htruncates : Truncates a.toInt b.toInt q.toInt := by
      rw [heq]
      exact truncates_tdiv a.toInt hzero
    exact .inr (.inr ⟨hb, hleast, q, hq, htruncates⟩)

/-- Two integers give an integer, or one of two errors. -/
theorem arith_int_cases (op : Arith) (a b : Int64) :
    (∃ w, arith op (.int a) (.int b) = .ok (.int w)) ∨
    arith op (.int a) (.int b) = .error (.overflow (.arith op)) ∨
    arith op (.int a) (.int b) = .error .divisionByZero := by
  by_cases hzero : op = .divide ∧ b = 0
  · obtain ⟨rfl, rfl⟩ := hzero
    exact .inr (.inr (divide_zero a))
  · rcases (@arith_checked op a b hzero).ok_or_overflow with hok | hoverflow
    · exact .inl hok
    · exact .inr (.inl hoverflow)

/-- An operand that is a text leaves only addition. -/
theorem arith_of_text {x y : Value} (h : x.type = .string ∨ y.type = .string) (op : Arith) :
    x.arith op y = textArith op x y := by
  cases x with
  | str s => cases y <;> rfl
  | int a | float a =>
    cases y with
    | str s => rfl
    | int b | float b => simp [type] at h

theorem text_of_invalidOperands {op : Arith} {x y : Value} {operation : Operation}
    {left right : ValueType} (h : x.arith op y = .error (.invalidOperands operation left right)) :
    x.type = .string ∨ y.type = .string := by
  cases x with
  | str s => exact .inl rfl
  | float a =>
    cases y with
    | str s => exact .inr rfl
    | int b | float b => cases h
  | int a =>
    cases y with
    | str s => exact .inr rfl
    | float b => cases h
    | int b =>
      rcases arith_int_cases op a b with ⟨w, hw⟩ | hw | hw <;> rw [hw] at h <;> cases h

end Value

structure IntegerArithmetic (a b : Int64) : Prop where
  add : Checked (.arith .add) (a.toInt + b.toInt) ((Value.int a).arith .add (.int b))
  subtract : Checked (.arith .subtract) (a.toInt - b.toInt)
    ((Value.int a).arith .subtract (.int b))
  multiply : Checked (.arith .multiply) (a.toInt * b.toInt)
    ((Value.int a).arith .multiply (.int b))
  negate : Checked .negate (-a.toInt) (Value.int a).negate
  divide_zero : (Value.int a).arith .divide (.int b) = .error .divisionByZero ↔ b = 0
  divide_overflow : (Value.int a).arith .divide (.int b) = .error (.overflow (.arith .divide)) ↔
    a.toInt = -2 ^ 63 ∧ b.toInt = -1
  divide : b ≠ 0 → ¬ (a.toInt = -2 ^ 63 ∧ b.toInt = -1) →
    ∃ q : Int64, (Value.int a).arith .divide (.int b) = .ok (.int q) ∧
      Truncates a.toInt b.toInt q.toInt
  integral : ∀ op z, (Value.int a).arith op (.int b) = .ok z → z.type = .int
  negate_integral : ∀ z, (Value.int a).negate = .ok z → z.type = .int

theorem integerArithmetic (a b : Int64) : IntegerArithmetic a b where
  add := Value.arith_checked (by simp)
  subtract := Value.arith_checked (by simp)
  multiply := Value.arith_checked (by simp)
  negate := Value.negate_checked a
  divide_zero := by
    rcases Value.divide_cases a b with ⟨hb, h⟩ | ⟨hb, _, h⟩ | ⟨hb, _, q, h, _⟩
    · exact iff_of_true h hb
    · exact iff_of_false (by simp [h]) hb
    · exact iff_of_false (by simp [h]) hb
  divide_overflow := by
    rcases Value.divide_cases a b with ⟨rfl, h⟩ | ⟨_, hleast, h⟩ | ⟨_, hleast, q, h, _⟩
    · simp [h]
    · exact iff_of_true h hleast
    · exact iff_of_false (by simp [h]) hleast
  divide hb hleast := by
    rcases Value.divide_cases a b with ⟨hzero, _⟩ | ⟨_, h, _⟩ | ⟨_, _, h⟩
    · exact absurd hzero hb
    · exact absurd h hleast
    · exact h
  integral op z hz := by
    rcases Value.arith_int_cases op a b with ⟨w, hw⟩ | hw | hw <;> rw [hw] at hz <;> cases hz
    rfl
  negate_integral z hz := by
    rcases (Value.negate_checked a).ok_or_overflow with ⟨w, hw⟩ | hw <;> rw [hw] at hz <;> cases hz
    rfl

/-- On integers the result is exact, or it has more than 64 bits and is refused with the name of the
operation; only division by zero is refused for another reason. Adding a text never fails, and every
other operation with a text, but no operation without one, is refused for its operands. -/
theorem arithmetic_exact_or_refused :
    (∀ a b : Int64, IntegerArithmetic a b) ∧
    ∀ x y : Value,
      (x.type = .string ∨ y.type = .string →
        x.arith .add y = .ok (.str (x.display ++ y.display))) ∧
      ∀ op, op ≠ .add →
        (x.type = .string ∨ y.type = .string →
          x.arith op y = .error (.invalidOperands (.arith op) x.type y.type)) ∧
        ∀ operation left right, x.arith op y = .error (.invalidOperands operation left right) →
          x.type = .string ∨ y.type = .string := by
  refine ⟨integerArithmetic, ?_⟩
  intro x y
  refine ⟨fun h => Value.arith_of_text h .add, ?_⟩
  intro op hop
  refine ⟨?_, fun _ _ _ h => Value.text_of_invalidOperands h⟩
  intro h
  rw [Value.arith_of_text h op]
  cases op with
  | add => exact absurd rfl hop
  | subtract | multiply | divide => rfl

/-- At the limits: the least integer has no negative and no quotient by `-1`, a square just below
`2 ^ 63` is exact and the next one is refused, and `-7` by `2` is cut toward zero. -/
theorem arithmetic_exact_or_refused_limits :
    (Value.int Int64.minValue).negate = .error (.overflow .negate) ∧
    (Value.int Int64.minValue).arith .divide (.int (-1)) = .error (.overflow (.arith .divide)) ∧
    (∃ w : Int64, (Value.int 3037000499).arith .multiply (.int 3037000499) = .ok (.int w) ∧
      w.toInt = 9223372030926249001) ∧
    (Value.int 3037000500).arith .multiply (.int 3037000500) =
      .error (.overflow (.arith .multiply)) ∧
    (∃ q : Int64, (Value.int (-7)).arith .divide (.int 2) = .ok (.int q) ∧
      Truncates (-7) 2 q.toInt) ∧
    (Value.str "a").arith .add (.str "b") = .ok (.str "ab") ∧
    (Value.float 1).arith .divide (.str "a") =
      .error (.invalidOperands (.arith .divide) .float .string) := by
  obtain ⟨hint, htext⟩ := arithmetic_exact_or_refused
  refine ⟨?_, ?_, ?_, ?_, ?_, ?_, ?_⟩
  · exact (hint Int64.minValue 0).negate.2 (by decide)
  · exact (hint Int64.minValue (-1)).divide_overflow.mpr (by decide)
  · exact (hint 3037000499 3037000499).multiply.1 (by decide)
  · exact (hint 3037000500 3037000500).multiply.2 (by decide)
  · exact (hint (-7) 2).divide (by decide) (by decide)
  · exact (htext (.str "a") (.str "b")).1 (.inl rfl)
  · exact ((htext (.float 1) (.str "a")).2 .divide (by decide)).1 (.inr rfl)

end Stack

end MiniC

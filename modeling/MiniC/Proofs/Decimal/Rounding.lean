import Mathlib
import MiniC.Decimal.Shortest

/-!
# Rounding intervals

The reals that round to a double form an interval, and the intervals of different doubles have no
point in common: two neighbours share an end, but of two neighbouring mantissas one is odd, and its
interval is open. The decimal that the search finds lies in the interval of its double, so it
belongs to no other one.
-/

namespace MiniC.Decimal

set_option autoImplicit false

/-- The mantissas and exponents of doubles. Only numbers with the least exponent have a smaller
mantissa than the hidden bit, and the gap below is half where the mantissa is the hidden bit. -/
structure Canonical (mantissa : Nat) (exponent : Int) (halfGapBelow : Bool) : Prop where
  mantissa_lt : mantissa < 2 * hiddenBit
  exponent_ge : -1074 ≤ exponent
  mantissa_ge : -1074 < exponent → hiddenBit ≤ mantissa
  half_iff : halfGapBelow = true ↔ mantissa = hiddenBit ∧ -1074 < exponent

/-- The sign, the exponent and the fraction in the bits of a double that is a number. -/
def Parts.fields? : Parts → Option (Bool × Nat × Nat)
  | .notANumber => none
  | .infinite negative => some (negative, 2047, 0)
  | .finite negative mantissa exponent _ =>
    if mantissa < hiddenBit then some (negative, 0, mantissa)
    else some (negative, (exponent + 1075).toNat, mantissa - hiddenBit)

section Parts

variable {x y : Float}

theorem canonical_parts {negative halfGapBelow : Bool} {mantissa : Nat} {exponent : Int}
    (h : parts x = .finite negative mantissa exponent halfGapBelow) :
    Canonical mantissa exponent halfGapBelow := by
  have hfraction : x.toBits.toNat % hiddenBit < hiddenBit := Nat.mod_lt _ (by decide)
  simp only [parts] at h
  split at h
  · split at h <;> cases h
  · split at h
    · cases h
      exact ⟨by omega, by omega, by omega, by simp⟩
    · cases h
      refine ⟨by omega, by omega, by omega, ?_⟩
      rw [decide_eq_true_eq]
      omega

theorem fields?_parts (hx : parts x ≠ .notANumber) :
    (parts x).fields? = some (x.toBits.toNat.testBit 63, x.toBits.toNat / hiddenBit % 2048,
      x.toBits.toNat % hiddenBit) := by
  have hfraction : x.toBits.toNat % hiddenBit < hiddenBit := Nat.mod_lt _ (by decide)
  simp only [parts] at hx ⊢
  split
  · next hexponent =>
    rw [if_pos hexponent] at hx
    split
    · next hzero => rw [Parts.fields?, hexponent, hzero]
    · next hzero => exact absurd (if_neg hzero) hx
  · split
    · next hexponent => rw [Parts.fields?, if_pos hfraction, hexponent]
    · have hexponent : ∀ i : Nat, ((i : Int) - 1075 + 1075).toNat = i := by omega
      rw [Parts.fields?, if_neg (by omega), hexponent, Nat.add_sub_cancel_left]

/-- The sign, the exponent and the fraction make up all bits. -/
theorem bits_eq {a b : UInt64} (hsign : a.toNat.testBit 63 = b.toNat.testBit 63)
    (hexponent : a.toNat / hiddenBit % 2048 = b.toNat / hiddenBit % 2048)
    (hfraction : a.toNat % hiddenBit = b.toNat % hiddenBit) : a = b := by
  have ha := a.toNat_lt
  have hb := b.toNat_lt
  simp only [Nat.testBit_eq_decide_div_mod_eq, decide_eq_decide] at hsign
  simp only [hiddenBit] at hexponent hfraction
  apply UInt64.toNat_inj.mp
  omega

theorem eq_of_parts_eq (hx : parts x ≠ .notANumber) (h : parts x = parts y) : x = y := by
  have hy : parts y ≠ .notANumber := h ▸ hx
  have hfields := congrArg Parts.fields? h
  rw [fields?_parts hx, fields?_parts hy] at hfields
  simp only [Option.some.injEq, Prod.mk.injEq] at hfields
  obtain ⟨hsign, hexponent, hfraction⟩ := hfields
  exact Float.toBits_inj.mp (bits_eq hsign hexponent hfraction)

open Float.Model in
theorem isNaN_of_parts (h : parts x = .notANumber) : x.isNaN = true := by
  have hbits : x.toBits.toNat / hiddenBit % 2048 = 2047 ∧ x.toBits.toNat % hiddenBit ≠ 0 := by
    simp only [parts] at h
    split at h
    · next hexponent =>
      split at h
      · cases h
      · next hfraction => exact ⟨hexponent, hfraction⟩
    · split at h <;> cases h
  obtain ⟨hexponent, hfraction⟩ := hbits
  have hones : @UnpackedFloat.unpackExponent .binary64 x.toBits.toBitVec = -1#_ := by
    apply BitVec.eq_of_toNat_eq
    simp [UnpackedFloat.unpackExponent, Nat.shiftRight_eq_div_pow]
    exact hexponent
  have hsome : @UnpackedFloat.unpackMantissa .binary64 x.toBits.toBitVec ≠ 0#_ := by
    intro hzero
    have hnat := congrArg BitVec.toNat hzero
    simp [UnpackedFloat.unpackMantissa] at hnat
    exact hfraction hnat
  show (UnpackedFloat.unpack .binary64 x.toBits.toBitVec).isNaN = true
  simp [UnpackedFloat.unpack, hones, hsome, UnpackedFloat.isNaN]

end Parts

def lowEnd (mantissa : Nat) (exponent : Int) (halfGapBelow : Bool) : ℚ :=
  (4 * mantissa - if halfGapBelow then 1 else 2) / 4 * 2 ^ exponent

def highEnd (mantissa : Nat) (exponent : Int) : ℚ :=
  (4 * mantissa + 2) / 4 * 2 ^ exponent

/-- `q` lies in the interval that rounds to `mantissa * 2 ^ exponent`. The ends belong to it if the
mantissa is even. -/
structure Rounds (mantissa : Nat) (exponent : Int) (halfGapBelow : Bool) (q : ℚ) : Prop where
  low : lowEnd mantissa exponent halfGapBelow ≤ q
  high : q ≤ highEnd mantissa exponent
  inside : mantissa % 2 = 1 →
    lowEnd mantissa exponent halfGapBelow < q ∧ q < highEnd mantissa exponent

section Rounds

variable {m m' : Nat} {e e' : Int} {half half' : Bool} {q : ℚ}

theorem two_zpow_pos (i : Int) : (0 : ℚ) < 2 ^ i :=
  zpow_pos (by norm_num) i

/-- If the interval of one number ends where that of the other begins, or earlier, a common point
can only be that end, and then both mantissas are even. -/
theorem Rounds.even_of_le (hq : Rounds m e half q) (hq' : Rounds m' e' half' q)
    (h : highEnd m e ≤ lowEnd m' e' half') :
    highEnd m e = lowEnd m' e' half' ∧ m % 2 = 0 ∧ m' % 2 = 0 := by
  have heq : highEnd m e = lowEnd m' e' half' :=
    le_antisymm h (hq'.low.trans hq.high)
  refine ⟨heq, ?_, ?_⟩
  · by_contra hodd
    have hlt := (hq.inside (by omega)).2
    exact absurd (hq'.low.trans_lt hlt) (not_lt.mpr h)
  · by_contra hodd
    have hlt := (hq'.inside (by omega)).1
    exact absurd (hlt.trans_le hq.high) (not_lt.mpr h)

theorem not_rounds_of_mantissa_lt (hm : m < m') (hq : Rounds m e half q)
    (hq' : Rounds m' e half' q) : False := by
  have hcast : (m : ℚ) + 1 ≤ m' := by exact_mod_cast hm
  have hgap : (if half' then (1 : ℚ) else 2) ≤ 2 := by split <;> norm_num
  have hle : highEnd m e ≤ lowEnd m' e half' := by
    apply mul_le_mul_of_nonneg_right _ (two_zpow_pos e).le
    linarith
  obtain ⟨heq, heven, heven'⟩ := hq.even_of_le hq' hle
  -- both mantissas are even, so they are two apart
  have hcast' : (m : ℚ) + 2 ≤ m' := by exact_mod_cast (show m + 2 ≤ m' by omega)
  have hends := mul_right_cancel₀ (two_zpow_pos e).ne' heq
  linarith

theorem not_rounds_of_exponent_lt (hc : Canonical m e half) (hc' : Canonical m' e' half')
    (he : e < e') (hq : Rounds m e half q) (hq' : Rounds m' e' half' q) : False := by
  have he' : -1074 < e' := hc.exponent_ge.trans_lt he
  have hm' := hc'.mantissa_ge he'
  -- the least mantissa has half the gap below it, so the interval begins where the binade does
  have hbegin : (4 * hiddenBit - 1 : ℚ) ≤ 4 * m' - if half' then 1 else 2 := by
    split
    · have hcast : (hiddenBit : ℚ) ≤ m' := by exact_mod_cast hm'
      linarith
    · next hhalf =>
      have hne : m' ≠ hiddenBit := fun heq => hhalf (hc'.half_iff.mpr ⟨heq, he'⟩)
      have hcast : (hiddenBit + 1 : ℚ) ≤ m' := by
        exact_mod_cast (show hiddenBit + 1 ≤ m' by omega)
      linarith
  have hpow : (2 : ℚ) * 2 ^ e ≤ 2 ^ e' := by
    rw [mul_comm, ← zpow_add_one₀ (by norm_num)]
    exact zpow_le_zpow_right₀ (by norm_num) (by omega)
  have hlow : (4 * hiddenBit - 1 : ℚ) / 4 * (2 * 2 ^ e) ≤ lowEnd m' e' half' := by
    apply mul_le_mul _ hpow (mul_pos two_pos (two_zpow_pos e)).le
    · have hpos : (1 : ℚ) ≤ hiddenBit := by norm_num [hiddenBit]
      linarith
    · linarith
  have hcast : (m : ℚ) + 1 ≤ 2 * hiddenBit := by exact_mod_cast hc.mantissa_lt
  have hpos := two_zpow_pos e
  have hhigh : highEnd m e ≤ (4 * hiddenBit - 1 : ℚ) / 4 * (2 * 2 ^ e) := by
    rw [highEnd, ← mul_assoc]
    apply mul_le_mul_of_nonneg_right _ hpos.le
    linarith
  obtain ⟨heq, heven, _⟩ := hq.even_of_le hq' (hhigh.trans hlow)
  have hbit : hiddenBit % 2 = 0 := rfl
  have hcast' : (m : ℚ) + 2 ≤ 2 * hiddenBit := by
    have hlt := hc.mantissa_lt
    exact_mod_cast (show m + 2 ≤ 2 * hiddenBit by omega)
  have hhigh' : highEnd m e < (4 * hiddenBit - 1 : ℚ) / 4 * (2 * 2 ^ e) := by
    rw [highEnd, ← mul_assoc]
    apply mul_lt_mul_of_pos_right _ hpos
    linarith
  exact absurd (hhigh'.trans_le hlow) heq.not_lt

/-- No number rounds to two doubles. -/
theorem Rounds.unique (hc : Canonical m e half) (hc' : Canonical m' e' half')
    (hq : Rounds m e half q) (hq' : Rounds m' e' half' q) : m = m' ∧ e = e' ∧ half = half' := by
  obtain he | rfl | he := lt_trichotomy e e'
  · exact (not_rounds_of_exponent_lt hc hc' he hq hq').elim
  · obtain hm | rfl | hm := lt_trichotomy m m'
    · exact (not_rounds_of_mantissa_lt hm hq hq').elim
    · exact ⟨rfl, rfl, Bool.eq_iff_iff.mpr (hc.half_iff.trans hc'.half_iff.symm)⟩
    · exact (not_rounds_of_mantissa_lt hm hq' hq).elim
  · exact (not_rounds_of_exponent_lt hc' hc he hq' hq).elim

end Rounds

section Search

def Scaled.value (d : Scaled) : ℚ :=
  d.digits * 10 ^ d.exponent

variable {m n : Nat} {e k : Int} {half : Bool}

theorem zpow_mul_pow_neg {b : ℚ} (hb : b ≠ 0) (i : Int) :
    b ^ i * b ^ (-i).toNat = b ^ i.toNat := by
  rw [← zpow_natCast, ← zpow_natCast, ← zpow_add₀ hb]
  congr 1
  omega

/-- The factor between the numbers of a grid and the integers that stand for them. -/
def gridScale (e k : Int) : ℚ :=
  4 * (2 ^ (-e).toNat * 10 ^ (-k).toNat)

theorem gridScale_pos (e k : Int) : 0 < gridScale e k := by
  unfold gridScale
  positivity

theorem cast_scale (a : ℚ) (e k : Int) :
    a * (2 ^ e.toNat * 10 ^ (-k).toNat) = a / 4 * 2 ^ e * gridScale e k := by
  rw [← zpow_mul_pow_neg (by norm_num : (2 : ℚ) ≠ 0), gridScale]
  ring

theorem cast_low (hm : 0 < m) :
    ((onGrid m e half k).low : ℚ) = lowEnd m e half * gridScale e k := by
  have hsub : ((4 * m - if half then 1 else 2 : ℕ) : ℚ) = 4 * m - if half then 1 else 2 := by
    rw [Nat.cast_sub (by split <;> omega)]
    push_cast
    rfl
  simp only [onGrid, Nat.pow_eq, Nat.cast_mul, Nat.cast_pow, hsub]
  exact cast_scale ..

theorem cast_high : ((onGrid m e half k).high : ℚ) = highEnd m e * gridScale e k := by
  simp only [onGrid, Nat.pow_eq]
  push_cast
  exact cast_scale ..

theorem cast_point :
    ((n * (onGrid m e half k).unit : ℕ) : ℚ) = n * 10 ^ k * gridScale e k := by
  simp only [onGrid, Nat.pow_eq]
  push_cast
  rw [← zpow_mul_pow_neg (by norm_num : (10 : ℚ) ≠ 0) k, gridScale]
  ring

/-- A grid point that passes the test of the search lies in the interval. -/
theorem rounds_of_holds (hm : 0 < m) (h : (onGrid m e half k).holds n) :
    Rounds m e half (n * 10 ^ k) := by
  have hle : ∀ a b : ℚ, a * gridScale e k ≤ b * gridScale e k ↔ a ≤ b :=
    fun _ _ => mul_le_mul_iff_of_pos_right (gridScale_pos e k)
  have hlt : ∀ a b : ℚ, a * gridScale e k < b * gridScale e k ↔ a < b :=
    fun _ _ => mul_lt_mul_iff_of_pos_right (gridScale_pos e k)
  have hclosed : (onGrid m e half k).closed = decide (m % 2 = 0) := rfl
  simp only [OnGrid.holds, hclosed, decide_eq_true_eq] at h
  split at h
  · next heven =>
    simp only [Bool.and_eq_true, decide_eq_true_eq] at h
    have hlow : (_ : ℚ) ≤ _ := Nat.cast_le.mpr h.1
    have hhigh : (_ : ℚ) ≤ _ := Nat.cast_le.mpr h.2
    rw [cast_low hm, cast_point, hle] at hlow
    rw [cast_high, cast_point, hle] at hhigh
    exact ⟨hlow, hhigh, fun hodd => by omega⟩
  · simp only [Bool.and_eq_true, decide_eq_true_eq] at h
    have hlow : (_ : ℚ) < _ := Nat.cast_lt.mpr h.1
    have hhigh : (_ : ℚ) < _ := Nat.cast_lt.mpr h.2
    rw [cast_low hm, cast_point, hlt] at hlow
    rw [cast_high, cast_point, hlt] at hhigh
    exact ⟨hlow.le, hhigh.le, fun _ => ⟨hlow, hhigh⟩⟩

theorem holds_of_nearest? {g : OnGrid} (h : g.nearest? = some n) : g.holds n := by
  simp only [OnGrid.nearest?] at h
  split at h
  · next hbelow =>
    cases h
    exact (Bool.and_eq_true_iff.mp hbelow).1
  · split at h
    · next habove =>
      cases h
      exact habove
    · cases h

theorem nearest?_isSome {g : OnGrid} (h : g.holds (g.value / g.unit)) : g.nearest?.isSome := by
  simp only [OnGrid.nearest?, h, Bool.true_and]
  split
  · rfl
  · next hnot =>
    simp only [Bool.not_eq_true', Bool.not_eq_false, Bool.and_eq_true] at hnot
    rw [if_pos hnot.1]
    rfl

/-- If the steps of the grid are at most as long as the way from the number to the lower end, the
grid point below the number lies in the interval. -/
theorem holds_below {g : OnGrid} (step : Nat) (hpos : 0 < g.unit) (hunit : g.unit ≤ step)
    (hlow : g.low + step ≤ g.value) (hhigh : g.value < g.high) :
    g.holds (g.value / g.unit) := by
  have hbelow := Nat.div_mul_le_self g.value g.unit
  have habove := Nat.lt_div_mul_add (a := g.value) hpos
  have hlow' : g.low < g.value / g.unit * g.unit := by omega
  have hhigh' : g.value / g.unit * g.unit < g.high := by omega
  unfold OnGrid.holds
  split <;> simp [hlow', hhigh', hlow'.le, hhigh'.le]

theorem nearest?_isSome_of_le (hm : 0 < m)
    (h : 4 * 2 ^ (-e).toNat * 10 ^ k.toNat ≤ 2 ^ e.toNat * 10 ^ (-k).toNat) :
    (onGrid m e half k).nearest?.isSome := by
  apply nearest?_isSome
  apply holds_below (2 ^ e.toNat * 10 ^ (-k).toNat) (by simp [onGrid]) h
  · simp only [onGrid, Nat.pow_eq]
    rw [← Nat.succ_mul]
    apply Nat.mul_le_mul_right
    split <;> omega
  · simp only [onGrid, Nat.pow_eq]
    apply Nat.mul_lt_mul_of_pos_right _ (by positivity)
    omega

/-- The finest grid has a point in every interval. -/
theorem nearest?_finest (hm : 0 < m) (he : -1074 ≤ e) (half : Bool) :
    (onGrid m e half (-389)).nearest?.isSome := by
  apply nearest?_isSome_of_le hm
  have hexponent : (-e).toNat ≤ 1074 := by omega
  have hpow : 2 ^ (-e).toNat ≤ 2 ^ 1074 := pow_le_pow_right₀ one_le_two hexponent
  have hbound : 4 * 2 ^ 1074 ≤ 10 ^ (- -389 : Int).toNat := by decide +kernel
  calc 4 * 2 ^ (-e).toNat * 10 ^ (-389 : Int).toNat
      = 4 * 2 ^ (-e).toNat := Nat.mul_one _
    _ ≤ 10 ^ (- -389 : Int).toNat := (Nat.mul_le_mul_left 4 hpow).trans hbound
    _ ≤ 2 ^ e.toNat * 10 ^ (- -389 : Int).toNat :=
      Nat.le_mul_of_pos_left _ (Nat.two_pow_pos _)

/-- The decimal that is found rounds to its double. -/
theorem shortest_rounds (hm : 0 < m) (he : -1074 ≤ e) :
    Rounds m e half (shortest m e half).value := by
  unfold shortest
  generalize hfound : gridExponents.findSome? (fun k =>
    ((onGrid m e half k).nearest?).map fun n => (⟨n, k⟩ : Scaled)) = found
  cases found with
  | none =>
    have hnone := List.findSome?_eq_none_iff.mp hfound (-389) (by decide +kernel)
    have hsome := nearest?_finest hm he half
    rw [Option.map_eq_none_iff.mp hnone] at hsome
    cases hsome
  | some d =>
    obtain ⟨k, _, hk⟩ := List.exists_of_findSome?_eq_some hfound
    obtain ⟨n, hn, rfl⟩ := Option.map_eq_some_iff.mp hk
    exact rounds_of_holds hm (holds_of_nearest? hn)

end Search

end MiniC.Decimal

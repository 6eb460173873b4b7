import Mathlib
import MiniC.Decimal.Notation
import MiniC.Proofs.Decimal.Integers
import MiniC.Proofs.Decimal.Rounding
import MiniC.Proofs.Text.Runs

/-!
# Written doubles

In both layouts the written magnitude reads as the shortest decimal that was found, and this decimal
lies in the rounding interval of its double. So the text determines every double that is a number,
down to the sign of a zero.
-/

namespace MiniC.Decimal

set_option autoImplicit false

open Text (takeWhile_run dropWhile_run)

section Digits

variable {cs ds : List Char}

theorem digitsValue_append (cs ds : List Char) :
    digitsValue (cs ++ ds) = digitsValue cs * 10 ^ ds.length + digitsValue ds := by
  have hfrom : ∀ (ds : List Char) (n : Nat),
      ds.foldl (fun value c => 10 * value + (c.toNat - '0'.toNat)) n =
        n * 10 ^ ds.length + digitsValue ds := by
    intro ds
    induction ds with
    | nil =>
      intro n
      simp [digitsValue]
    | cons d ds ih =>
      intro n
      rw [digitsValue, List.foldl_cons, List.foldl_cons, ih, ih, List.length_cons]
      ring
  rw [digitsValue, List.foldl_append]
  exact hfrom ds _

theorem digitsValue_zeros (n : Nat) : digitsValue (List.replicate n '0') = 0 := by
  induction n with
  | zero => rfl
  | succ n ih =>
    rw [List.replicate_succ', digitsValue_append, ih]
    rfl

theorem isDigit_zeros {n : Nat} : ∀ c ∈ List.replicate n '0', c.isDigit := by
  intro c hc
  rw [List.eq_of_mem_replicate hc]
  rfl

theorem isDigit_append (hcs : ∀ c ∈ cs, c.isDigit) (hds : ∀ c ∈ ds, c.isDigit) :
    ∀ c ∈ cs ++ ds, c.isDigit := by
  intro c hc
  exact (List.mem_append.mp hc).elim (hcs c) (hds c)

end Digits

def Unsigned.value (u : Unsigned) : ℚ :=
  digitsValue (u.whole ++ u.fraction) * 10 ^ (u.exponent - u.fraction.length)

/-- `cs` is read as the number `q`. -/
def Spells (cs : List Char) (q : ℚ) : Prop :=
  ∃ u, readUnsigned? cs = some u ∧ u.value = q

section Spells

variable {cs whole fraction tail : List Char} {k : Int} {u : Unsigned} {q : ℚ}

theorem head?_of_readExponent? (h : readExponent? tail = some k) :
    ∀ c ∈ tail.head?, c = 'e' ∨ c = 'E' := by
  cases tail with
  | nil => simp
  | cons c tail =>
    intro d hd
    cases hd
    by_contra hc
    rw [readExponent?, if_neg hc] at h
    cases h

theorem readExponent?_nil : readExponent? [] = some 0 :=
  rfl

theorem not_isDigit_of_readExponent? (h : readExponent? tail = some k) :
    ∀ c ∈ tail.head?, ¬ c.isDigit := by
  intro c hc
  rcases head?_of_readExponent? h c hc with rfl | rfl <;> decide

theorem spells_of_whole (hne : whole ≠ []) (hwhole : ∀ c ∈ whole, c.isDigit)
    (htail : readExponent? tail = some k) :
    Spells (whole ++ tail) (digitsValue whole * 10 ^ k) := by
  have hstop := not_isDigit_of_readExponent? htail
  have hpoint : ∀ rest, tail ≠ '.' :: rest := by
    rintro rest rfl
    exact absurd (head?_of_readExponent? htail '.' rfl) (by decide)
  refine ⟨⟨whole, [], k⟩, ?_, by simp [Unsigned.value]⟩
  simp only [readUnsigned?, takeWhile_run hwhole hstop, dropWhile_run hwhole hstop, hne, false_and,
    if_false, htail]
  rfl

theorem spells_of_point (hne : whole ≠ []) (hwhole : ∀ c ∈ whole, c.isDigit)
    (hfraction : ∀ c ∈ fraction, c.isDigit) (htail : readExponent? tail = some k) :
    Spells (whole ++ '.' :: (fraction ++ tail))
      (digitsValue (whole ++ fraction) * 10 ^ (k - fraction.length)) := by
  have hstop := not_isDigit_of_readExponent? htail
  have hpoint : ∀ c ∈ ('.' :: (fraction ++ tail)).head?, ¬ c.isDigit := by
    intro c hc
    cases hc
    decide
  refine ⟨⟨whole, fraction, k⟩, ?_, rfl⟩
  simp [readUnsigned?, takeWhile_run hwhole hpoint, dropWhile_run hwhole hpoint,
    takeWhile_run hfraction hstop, dropWhile_run hfraction hstop, hne, htail]

theorem split_of_readUnsigned? (h : readUnsigned? cs = some u) :
    ∃ tail, readExponent? tail = some u.exponent ∧ (∀ c ∈ u.whole, c.isDigit) ∧
      (∀ c ∈ u.fraction, c.isDigit) ∧
      (u.whole ≠ [] ∧ cs = u.whole ++ tail ∨ cs = u.whole ++ '.' :: (u.fraction ++ tail)) := by
  have hdigits : ∀ ds : List Char, ∀ c ∈ ds.takeWhile Char.isDigit, c.isDigit :=
    fun ds c hc => List.mem_takeWhile_imp hc
  have hcs := (List.takeWhile_append_dropWhile (p := Char.isDigit) (l := cs)).symm
  simp only [readUnsigned?] at h
  split at h
  · next rest hrest =>
    split at h
    · cases h
    · obtain ⟨k, hk, rfl⟩ := Option.map_eq_some_iff.mp h
      refine ⟨rest.dropWhile Char.isDigit, hk, hdigits cs, hdigits rest, .inr ?_⟩
      rwa [List.takeWhile_append_dropWhile, ← hrest]
  · split at h
    · cases h
    · next hsome =>
      obtain ⟨k, hk, rfl⟩ := Option.map_eq_some_iff.mp h
      exact ⟨cs.dropWhile Char.isDigit, hk, hdigits cs, by simp,
        .inl ⟨fun hnil => hsome ⟨hnil, rfl⟩, hcs⟩⟩

theorem lineFeed_not_mem_of_readExponent? (h : readExponent? tail = some k) : '\n' ∉ tail := by
  have hhead := head?_of_readExponent? h
  cases tail with
  | nil => simp
  | cons c tail =>
    rw [readExponent?, if_pos (hhead c rfl)] at h
    rw [List.mem_cons, not_or]
    refine ⟨?_, lineFeed_not_mem_of_readInt? h⟩
    rintro rfl
    exact absurd (hhead _ rfl) (by decide)

theorem Spells.lineFeed_not_mem (h : Spells cs q) : '\n' ∉ cs := by
  obtain ⟨u, hu, _⟩ := h
  obtain ⟨tail, htail, hwhole, hfraction, hcs⟩ := split_of_readUnsigned? hu
  have htail' := lineFeed_not_mem_of_readExponent? htail
  have hwhole' := lineFeed_not_mem_of_isDigit hwhole
  have hfraction' := lineFeed_not_mem_of_isDigit hfraction
  rcases hcs with ⟨_, rfl⟩ | rfl
  · simp [hwhole', htail']
  · simp [hwhole', hfraction', htail']

theorem Spells.head (h : Spells cs q) : ∃ c rest, cs = c :: rest ∧ (c.isDigit ∨ c = '.') := by
  obtain ⟨u, hu, _⟩ := h
  obtain ⟨tail, _, hwhole, _, hcs⟩ := split_of_readUnsigned? hu
  cases hw : u.whole with
  | nil =>
    rw [hw] at hcs
    rcases hcs with ⟨hne, _⟩ | rfl
    · exact absurd rfl hne
    · exact ⟨'.', _, rfl, .inr rfl⟩
  | cons c whole =>
    rw [hw] at hcs hwhole
    have hc := hwhole c List.mem_cons_self
    rcases hcs with ⟨_, rfl⟩ | rfl
    · exact ⟨c, _, rfl, .inl hc⟩
    · exact ⟨c, _, rfl, .inl hc⟩

theorem Spells.unique {q' : ℚ} (h : Spells cs q) (h' : Spells cs q') : q = q' := by
  obtain ⟨u, hu, rfl⟩ := h
  obtain ⟨u', hu', rfl⟩ := h'
  rw [hu, Option.some.injEq] at hu'
  rw [hu']

end Spells

section Notation

variable {d : Scaled}

theorem digitChars_ne_nil (n : Nat) : digitChars n ≠ [] :=
  Nat.toDigits_ne_nil

theorem isDigit_digitChars {n : Nat} : ∀ c ∈ digitChars n, c.isDigit :=
  isDigit_toDigits

theorem digitsValue_digitChars (n : Nat) : digitsValue (digitChars n) = n :=
  digitsValue_toDigits n

theorem ten_zpow_toNat {i : Int} (hi : 0 ≤ i) : (10 : ℚ) ^ i.toNat = 10 ^ i := by
  rw [← zpow_natCast, Int.toNat_of_nonneg hi]

/-- A decimal without places is written with the zeros that its exponent stands for. -/
theorem value_whole (hd : 0 ≤ d.exponent) :
    (digitsValue (digitChars d.digits ++ List.replicate d.exponent.toNat '0') : ℚ) = d.value := by
  rw [digitsValue_append, digitsValue_zeros, digitsValue_digitChars, List.length_replicate,
    Scaled.value, ← ten_zpow_toNat hd]
  push_cast
  ring

theorem positional_of_nonneg (hd : 0 ≤ d.exponent) :
    d.positional = digitChars d.digits ++ List.replicate d.exponent.toNat '0' :=
  if_pos hd

theorem spells_point_inside {w : Nat} (hpos : 0 < w)
    (hw : (w : Int) = (digitChars d.digits).length + d.exponent) (hd : d.exponent < 0) :
    Spells ((digitChars d.digits).take w ++ '.' :: (digitChars d.digits).drop w) d.value := by
  have hdigits := isDigit_digitChars (n := d.digits)
  have hne : (digitChars d.digits).take w ≠ [] := by
    rw [ne_eq, List.take_eq_nil_iff, not_or]
    exact ⟨by omega, digitChars_ne_nil d.digits⟩
  have hspells := spells_of_point hne (fun c hc => hdigits c (List.mem_of_mem_take hc))
    (fun c hc => hdigits c (List.mem_of_mem_drop (i := w) hc)) readExponent?_nil
  have hplaces : (0 - ((digitChars d.digits).drop w).length : Int) = d.exponent := by
    rw [List.length_drop]
    omega
  rwa [List.append_nil, List.take_append_drop, digitsValue_digitChars, hplaces] at hspells

theorem spells_point_before {w : Nat}
    (hw : -(w : Int) = (digitChars d.digits).length + d.exponent) :
    Spells ('0' :: '.' :: (List.replicate w '0' ++ digitChars d.digits)) d.value := by
  have hzero : List.replicate 1 '0' ≠ [] := List.cons_ne_nil _ _
  have hspells := spells_of_point hzero isDigit_zeros
    (isDigit_append (isDigit_zeros (n := w)) (isDigit_digitChars (n := d.digits))) readExponent?_nil
  have hplaces : (0 - (List.replicate w '0' ++ digitChars d.digits).length : Int) =
      d.exponent := by
    rw [List.length_append, List.length_replicate]
    omega
  have hzeros : digitsValue (List.replicate 1 '0' ++
      (List.replicate w '0' ++ digitChars d.digits)) = d.digits := by
    rw [← List.append_assoc, List.replicate_append_replicate, digitsValue_append,
      digitsValue_zeros, digitsValue_digitChars]
    omega
  rwa [List.append_nil, hzeros, hplaces] at hspells

theorem spells_positional (d : Scaled) : Spells d.positional d.value := by
  by_cases hexponent : 0 ≤ d.exponent
  · rw [positional_of_nonneg hexponent]
    have hspells := spells_of_whole
      (List.append_ne_nil_of_left_ne_nil (digitChars_ne_nil d.digits) _)
      (isDigit_append isDigit_digitChars (isDigit_zeros (n := d.exponent.toNat))) readExponent?_nil
    rwa [List.append_nil, value_whole hexponent, zpow_zero, mul_one] at hspells
  · simp only [Scaled.positional, if_neg hexponent]
    split
    · apply spells_point_inside <;> omega
    · apply spells_point_before
      omega

theorem spells_scientific (d : Scaled) : Spells d.scientific d.value := by
  have hne := digitChars_ne_nil d.digits
  have hdigits := isDigit_digitChars (n := d.digits)
  have hvalue := digitsValue_digitChars d.digits
  have htail : readExponent? ('e' :: (toString d.magnitude).toList) = some d.magnitude :=
    readInt?_toString d.magnitude
  have hmagnitude : d.magnitude = (digitChars d.digits).length - 1 + d.exponent := rfl
  unfold Scaled.scientific
  generalize digitChars d.digits = ds at hne hdigits hvalue hmagnitude ⊢
  split
  · next first second more =>
    have hsplit : ∀ c ∈ [first] ++ second :: more, c.isDigit := hdigits
    rw [List.forall_mem_append] at hsplit
    have hspells := spells_of_point (List.cons_ne_nil _ _) hsplit.1 hsplit.2 htail
    have hplaces : d.magnitude - (second :: more).length = d.exponent := by
      simp only [List.length_cons] at hmagnitude ⊢
      omega
    rwa [List.singleton_append, List.singleton_append, hvalue, hplaces] at hspells
  · next hmany =>
    have hsingle : ds.length = 1 := by
      rcases ds with _ | ⟨first, _ | ⟨second, more⟩⟩
      · exact absurd rfl hne
      · rfl
      · exact absurd rfl (hmany first second more)
    have hexponent : d.magnitude = d.exponent := by omega
    have hspells := spells_of_whole hne hdigits htail
    rw [hvalue] at hspells
    rwa [Scaled.value, ← hexponent]

theorem spells_places (hd : 0 ≤ d.exponent) : Spells (d.positional ++ ['.', '0']) d.value := by
  rw [positional_of_nonneg hd]
  have hspells := spells_of_point
    (List.append_ne_nil_of_left_ne_nil (digitChars_ne_nil d.digits) _)
    (isDigit_append isDigit_digitChars (isDigit_zeros (n := d.exponent.toNat)))
    (isDigit_zeros (n := 1)) readExponent?_nil
  rw [digitsValue_append, digitsValue_zeros] at hspells
  push_cast at hspells
  rw [value_whole hd] at hspells
  simpa using hspells

end Notation

/-- What a layout writes for a magnitude is read as this magnitude. -/
structure Layout.ReadsBack (layout : Layout) : Prop where
  zero : Spells layout.zero 0
  other : ∀ d, Spells (layout.other d) d.value

theorem readsBack_plain : Layout.plain.ReadsBack where
  zero := ⟨⟨['0'], [], 0⟩, rfl, by simp [Unsigned.value, digitsValue]⟩
  other := spells_positional

theorem readsBack_marked : Layout.marked.ReadsBack where
  zero := ⟨⟨['0'], ['0'], 0⟩, rfl, by simp [Unsigned.value, digitsValue]⟩
  other d := by
    simp only [Layout.marked]
    split
    · exact spells_scientific d
    · split
      · next hd => exact spells_places hd
      · exact spells_positional d

def Parts.negative : Parts → Bool
  | .notANumber => false
  | .infinite negative => negative
  | .finite negative _ _ _ => negative

def Layout.unsigned (layout : Layout) : Parts → List Char
  | .notANumber => ['N', 'a', 'N']
  | .infinite _ => ['i', 'n', 'f']
  | .finite _ mantissa exponent halfGapBelow =>
    if mantissa = 0 then layout.zero else layout.other (shortest mantissa exponent halfGapBelow)

section Write

variable {layout : Layout} {x y : Float}

theorem write_eq (layout : Layout) (x : Float) :
    layout.write x = if (parts x).negative then '-' :: layout.unsigned (parts x)
      else layout.unsigned (parts x) := by
  unfold Layout.write
  cases parts x <;> rfl

theorem rounds_zero (e : Int) (half : Bool) : Rounds 0 e half 0 where
  low := by
    apply mul_nonpos_of_nonpos_of_nonneg _ (two_zpow_pos e).le
    cases half <;> norm_num
  high := mul_nonneg (by norm_num) (two_zpow_pos e).le
  inside hodd := by cases hodd

theorem spells_unsigned (hlayout : layout.ReadsBack) {negative half : Bool} {m : Nat} {e : Int}
    (hx : parts x = .finite negative m e half) :
    ∃ q, Spells (layout.unsigned (parts x)) q ∧ Rounds m e half q := by
  simp only [hx, Layout.unsigned]
  split
  · next hm =>
    subst hm
    exact ⟨0, hlayout.zero, rounds_zero e half⟩
  · next hm =>
    exact ⟨_, hlayout.other _, shortest_rounds (Nat.pos_of_ne_zero hm)
      (canonical_parts hx).exponent_ge⟩

theorem parts_ne_notANumber (hx : x.isNaN = false) : parts x ≠ .notANumber := by
  intro h
  rw [isNaN_of_parts h] at hx
  cases hx

theorem head_unsigned (hlayout : layout.ReadsBack) (x : Float) (cs : List Char) :
    layout.unsigned (parts x) ≠ '-' :: cs := by
  intro h
  cases hx : parts x with
  | notANumber =>
    rw [hx] at h
    cases h
  | infinite negative =>
    rw [hx] at h
    cases h
  | finite negative m e half =>
    obtain ⟨q, hq, _⟩ := spells_unsigned hlayout hx
    obtain ⟨c, rest, hcs, hc⟩ := hq.head
    rw [h] at hcs
    cases hcs
    exact absurd hc (by decide)

theorem parts_eq_of_unsigned (hlayout : layout.ReadsBack) (hx : parts x ≠ .notANumber)
    (hy : parts y ≠ .notANumber) (hsign : (parts x).negative = (parts y).negative)
    (h : layout.unsigned (parts x) = layout.unsigned (parts y)) : parts x = parts y := by
  have hinf : ∀ q, ¬ Spells ['i', 'n', 'f'] q := by
    rintro q ⟨u, hu, _⟩
    cases hu
  cases hpx : parts x with
  | notANumber => exact absurd hpx hx
  | infinite negative =>
    cases hpy : parts y with
    | notANumber => exact absurd hpy hy
    | infinite negative' =>
      rw [hpx, hpy] at hsign
      exact congrArg Parts.infinite hsign
    | finite negative' m' e' half' =>
      obtain ⟨q, hq, _⟩ := spells_unsigned hlayout hpy
      rw [← h, hpx] at hq
      exact absurd hq (hinf q)
  | finite negative m e half =>
    obtain ⟨q, hq, hrounds⟩ := spells_unsigned hlayout hpx
    rw [h] at hq
    cases hpy : parts y with
    | notANumber => exact absurd hpy hy
    | infinite negative' =>
      rw [hpy] at hq
      exact absurd hq (hinf q)
    | finite negative' m' e' half' =>
      obtain ⟨q', hq', hrounds'⟩ := spells_unsigned hlayout hpy
      rw [hq.unique hq'] at hrounds
      rw [hpx, hpy] at hsign
      obtain ⟨rfl, rfl, rfl⟩ :=
        Rounds.unique (canonical_parts hpx) (canonical_parts hpy) hrounds hrounds'
      rw [show negative = negative' from hsign]

/-- The text of a double that is a number determines it. -/
theorem write_inj (hlayout : layout.ReadsBack) (hx : x.isNaN = false) (hy : y.isNaN = false)
    (h : layout.write x = layout.write y) : x = y := by
  have hx' := parts_ne_notANumber hx
  apply eq_of_parts_eq hx'
  rw [write_eq, write_eq] at h
  have hheadx := head_unsigned hlayout x
  have hheady := head_unsigned hlayout y
  split at h
  · next hsign =>
    split at h
    · next hsign' =>
      exact parts_eq_of_unsigned hlayout hx' (parts_ne_notANumber hy) (hsign.trans hsign'.symm)
        (List.cons.inj h).2
    · exact absurd h.symm (hheady _)
  · next hsign =>
    split at h
    · exact absurd h (hheadx _)
    · next hsign' =>
      simp only [Bool.not_eq_true] at hsign hsign'
      exact parts_eq_of_unsigned hlayout hx' (parts_ne_notANumber hy) (hsign.trans hsign'.symm) h

theorem lineFeed_not_mem_write (hlayout : layout.ReadsBack) (x : Float) :
    '\n' ∉ layout.write x := by
  have hunsigned : '\n' ∉ layout.unsigned (parts x) := by
    cases hx : parts x with
    | notANumber => simp [Layout.unsigned]
    | infinite negative => simp [Layout.unsigned]
    | finite negative m e half =>
      obtain ⟨q, hq, _⟩ := spells_unsigned hlayout hx
      rw [← hx]
      exact hq.lineFeed_not_mem
  rw [write_eq]
  split
  · simpa using hunsigned
  · exact hunsigned

theorem plain_inj (hx : x.isNaN = false) (hy : y.isNaN = false) (h : plain x = plain y) : x = y :=
  write_inj readsBack_plain hx hy (String.ofList_injective h)

theorem lineFeed_not_mem_plain (x : Float) : '\n' ∉ (plain x).toList := by
  rw [plain, String.toList_ofList]
  exact lineFeed_not_mem_write readsBack_plain x

end Write

end MiniC.Decimal

import MiniC.Proofs.Text.ByteOrder
import MiniC.Stack.Value

/-!
# Comparisons are coherent

The six comparisons of two values look at one ordering between them. Two numbers have one unless a
NaN is among them, two texts always have one, a text and a number never. What the comparisons have
to do with each other follows from that ordering, and from how it turns around when the values are
exchanged.
-/

namespace MiniC.Stack

set_option autoImplicit false

section Floats

open Float.Model

theorem magnitude_swap (m n : Nat) (e f : Int) :
    (Ord.compare f e).then (Ord.compare n m) =
      ((Ord.compare e f).then (Ord.compare m n)).swap := by
  rw [Ordering.swap_then, ← Std.OrientedCmp.eq_swap, ← Std.OrientedCmp.eq_swap]

theorem unpacked_compare_swap (a b : UnpackedFloat) :
    b.compare a = (a.compare b).map Ordering.swap := by
  cases a with
  | notANumber => cases b <;> rfl
  | infinity s =>
    cases b with
    | notANumber => cases s <;> rfl
    | infinity t => cases s <;> cases t <;> rfl
    | zero | finite => cases s <;> rfl
  | zero s =>
    cases b with
    | notANumber | zero => rfl
    | infinity t | finite t => cases t <;> rfl
  | finite s m e =>
    cases b with
    | notANumber => cases s <;> rfl
    | infinity t => cases s <;> cases t <;> rfl
    | zero => cases s <;> rfl
    | finite t n f =>
      cases s <;> cases t
      · exact congrArg (fun o => some (Ordering.swap o)) (magnitude_swap m n e f)
      · rfl
      · rfl
      · exact congrArg some (magnitude_swap m n e f)

theorem floatOrdering_eq_compare (a b : Float) :
    floatOrdering a b = a.toModel.compare b.toModel := by
  have hlt : ∀ x y : Float, x < y ↔ x.toModel.compare y.toModel = some .lt := by
    intro x y
    show decide (x.toModel < y.toModel) = true ↔ _
    rw [decide_eq_true_iff]
    exact beq_iff_eq
  have heq : (a == b) = true ↔ a.toModel.compare b.toModel = some .eq := by
    show (a.toModel.compare b.toModel == some .eq) = true ↔ _
    exact beq_iff_eq
  have hswap : b.toModel.compare a.toModel = (a.toModel.compare b.toModel).map Ordering.swap :=
    unpacked_compare_swap _ _
  simp only [floatOrdering, hlt, heq, hswap]
  rcases a.toModel.compare b.toModel with _ | _ | _ | _ <;> rfl

theorem floatOrdering_swap (a b : Float) :
    floatOrdering b a = (floatOrdering a b).map Ordering.swap := by
  rw [floatOrdering_eq_compare, floatOrdering_eq_compare]
  exact unpacked_compare_swap _ _

end Floats

/-- The comparison that says the same of the exchanged values. -/
def Comparison.mirrored : Comparison → Comparison
  | .greater => .lower
  | .greaterEqual => .lowerEqual
  | .lower => .greater
  | .lowerEqual => .greaterEqual
  | c => c

theorem Comparison.holds_mirrored (c : Comparison) (ordering : Option Ordering) :
    c.mirrored.holds (ordering.map .swap) = c.holds ordering := by
  cases c <;> rcases ordering with _ | _ | _ | _ <;> rfl

theorem Comparison.holds_notEqual (ordering : Option Ordering) :
    notEqual.holds ordering = !equal.holds ordering := by
  rcases ordering with _ | _ | _ | _ <;> rfl

theorem Comparison.holds_lowerEqual (ordering : Option Ordering) :
    lowerEqual.holds ordering = (lower.holds ordering || equal.holds ordering) := by
  rcases ordering with _ | _ | _ | _ <;> rfl

def ValueError.mirrored : ValueError → ValueError
  | .invalidOperands (.compare c) left right => .invalidOperands (.compare c.mirrored) right left
  | e => e

def Comparison.IsOrder (c : Comparison) : Prop :=
  c ≠ .equal ∧ c ≠ .notEqual

namespace Value

variable {a b : Value} {ordering : Option Ordering}

/-- One of the values is a text, and the other is not. -/
def Mixed (a b : Value) : Prop :=
  ¬ (a.type = .string ↔ b.type = .string)

/-- How two values are ordered. For a text and a number the question has no answer. -/
def ordering? : Value → Value → Option (Option Ordering)
  | .int a, .int b => some (some (Ord.compare a.toInt b.toInt))
  | .int a, .float b => some (floatOrdering (promote a) b)
  | .float a, .int b => some (floatOrdering a (promote b))
  | .float a, .float b => some (floatOrdering a b)
  | .str a, .str b => some (some (Ord.compare a b))
  | _, _ => none

theorem ordering?_eq_none_iff : a.ordering? b = none ↔ a.Mixed b := by
  cases a <;> cases b <;> simp [ordering?, Mixed, type]

theorem ordering?_swap (a b : Value) :
    b.ordering? a = (a.ordering? b).map (Option.map Ordering.swap) := by
  cases a with
  | int a =>
    cases b with
    | int b => exact congrArg (fun o => some (some o)) Std.OrientedCmp.eq_swap
    | float b => exact congrArg some (floatOrdering_swap (promote a) b)
    | str b => rfl
  | float a =>
    cases b with
    | int b => exact congrArg some (floatOrdering_swap a (promote b))
    | float b => exact congrArg some (floatOrdering_swap a b)
    | str b => rfl
  | str a =>
    cases b with
    | int b | float b => rfl
    | str b => exact congrArg (fun o => some (some o)) Std.OrientedCmp.eq_swap

theorem compare_of_ordering? (h : a.ordering? b = some ordering) (c : Comparison) :
    a.compare c b = .ok (c.holds ordering) := by
  cases a <;> cases b <;> cases h <;> rfl

theorem compare_of_none (h : a.ordering? b = none) (c : Comparison) :
    a.compare c b = match c with
      | .equal => .ok false
      | .notEqual => .ok true
      | c => .error (.invalidOperands (.compare c) a.type b.type) := by
  cases a <;> cases b <;> cases h <;> rfl

/-- Exchanging the values and turning the comparison around changes nothing but the names in an
error. -/
theorem compare_mirrored (a b : Value) (c : Comparison) :
    b.compare c.mirrored a = (a.compare c b).mapError ValueError.mirrored := by
  have hswap := ordering?_swap a b
  cases h : a.ordering? b with
  | some ordering =>
    rw [h] at hswap
    rw [compare_of_ordering? h, compare_of_ordering? hswap, c.holds_mirrored]
    rfl
  | none =>
    rw [h] at hswap
    rw [compare_of_none h, compare_of_none hswap]
    cases c <;> rfl

theorem compare_equal (a b : Value) :
    ∃ same, a.compare .equal b = .ok same ∧ a.compare .notEqual b = .ok !same := by
  cases h : a.ordering? b with
  | some ordering =>
    refine ⟨Comparison.equal.holds ordering, compare_of_ordering? h .equal, ?_⟩
    rw [compare_of_ordering? h, Comparison.holds_notEqual]
  | none => exact ⟨false, compare_of_none h .equal, compare_of_none h .notEqual⟩

theorem compare_equal_symm (a b : Value) : a.compare .equal b = b.compare .equal a := by
  obtain ⟨same, hsame, _⟩ := compare_equal a b
  have hmirrored := compare_mirrored a b .equal
  rw [hsame] at hmirrored
  exact hsame.trans hmirrored.symm

theorem compare_lowerEqual (h : ¬ a.Mixed b) :
    ∃ lower same, a.compare .lower b = .ok lower ∧ a.compare .equal b = .ok same ∧
      a.compare .lowerEqual b = .ok (lower || same) := by
  obtain ⟨ordering, hordering⟩ :=
    Option.ne_none_iff_exists'.mp (mt ordering?_eq_none_iff.mp h)
  refine ⟨_, _, compare_of_ordering? hordering .lower, compare_of_ordering? hordering .equal, ?_⟩
  rw [compare_of_ordering? hordering, Comparison.holds_lowerEqual]

theorem eq_of_compare_error {c : Comparison} {e : ValueError} (h : a.compare c b = .error e) :
    a.Mixed b ∧ e = .invalidOperands (.compare c) a.type b.type := by
  cases hordering : a.ordering? b with
  | some ordering =>
    rw [compare_of_ordering? hordering] at h
    cases h
  | none =>
    refine ⟨ordering?_eq_none_iff.mp hordering, ?_⟩
    rw [compare_of_none hordering] at h
    cases c <;> cases h <;> rfl

theorem compare_error_of_mixed {c : Comparison} (hc : c.IsOrder) (h : a.Mixed b) :
    ∃ e, a.compare c b = .error e := by
  rw [compare_of_none (ordering?_eq_none_iff.mpr h)]
  cases c with
  | equal => exact absurd rfl hc.1
  | notEqual => exact absurd rfl hc.2
  | greater | greaterEqual | lower | lowerEqual => exact ⟨_, rfl⟩

end Value

structure Coherent (a b : Value) : Prop where
  notEqual : ∃ same, a.compare .equal b = .ok same ∧ a.compare .notEqual b = .ok !same
  symmetric : a.compare .equal b = b.compare .equal a
  greater : a.compare .greater b = (b.compare .lower a).mapError ValueError.mirrored
  greaterEqual : a.compare .greaterEqual b =
    (b.compare .lowerEqual a).mapError ValueError.mirrored
  lowerEqual : ¬ a.Mixed b → ∃ lower same, a.compare .lower b = .ok lower ∧
    a.compare .equal b = .ok same ∧ a.compare .lowerEqual b = .ok (lower || same)
  fails_iff : ∀ c : Comparison, c.IsOrder → ((∃ e, a.compare c b = .error e) ↔ a.Mixed b)
  fails_with : ∀ c e, a.compare c b = .error e → e = .invalidOperands (.compare c) a.type b.type

theorem coherent (a b : Value) : Coherent a b where
  notEqual := a.compare_equal b
  symmetric := a.compare_equal_symm b
  greater := b.compare_mirrored a .lower
  greaterEqual := b.compare_mirrored a .lowerEqual
  lowerEqual := Value.compare_lowerEqual
  fails_iff c hc := by
    constructor
    · intro h
      obtain ⟨e, he⟩ := h
      exact (Value.eq_of_compare_error he).1
    · exact Value.compare_error_of_mixed hc
  fails_with c e h := (Value.eq_of_compare_error h).2

/-- The comparisons order the values of a family: of lower, equal and greater exactly one holds, and
lower is transitive. -/
structure Orders {α : Type} (value : α → Value) : Prop where
  one : ∀ x y, ∃ ordering : Ordering,
    (value x).compare .lower (value y) = .ok (ordering = .lt) ∧
    (value x).compare .equal (value y) = .ok (ordering = .eq) ∧
    (value x).compare .greater (value y) = .ok (ordering = .gt)
  trans : ∀ x y z, (value x).compare .lower (value y) = .ok true →
    (value y).compare .lower (value z) = .ok true → (value x).compare .lower (value z) = .ok true

section Orders

variable {α β : Type} [Ord β] [Std.TransOrd β] {value : α → Value}

/-- Values that are ordered as their keys are. -/
theorem orders_of_key (key : α → β)
    (h : ∀ x y, (value x).ordering? (value y) = some (some (Ord.compare (key x) (key y)))) :
    Orders value := by
  have hlower : ∀ x y, (value x).compare .lower (value y) = .ok true ↔
      Ord.compare (key x) (key y) = .lt := by
    intro x y
    rw [Value.compare_of_ordering? (h x y)]
    simp [Comparison.holds]
  constructor
  · intro x y
    have hok := Value.compare_of_ordering? (h x y)
    refine ⟨Ord.compare (key x) (key y), ?_, ?_, ?_⟩
    · rw [hok]
      simp [Comparison.holds]
    · rw [hok]
      simp [Comparison.holds]
    · rw [hok]
      simp [Comparison.holds]
  · intro x y z hxy hyz
    rw [hlower] at hxy hyz ⊢
    exact Std.TransCmp.lt_trans hxy hyz

end Orders

theorem compare_lower_str (s t : String) :
    (Value.str s).compare .lower (.str t) = .ok (Text.bytes s < Text.bytes t) := by
  have hlt : Ord.compare s t = .lt ↔ Text.bytes s < Text.bytes t := by
    rw [Text.bytes_lt_iff]
    exact compareOfLessAndEq_eq_lt
  simp [Value.compare, Comparison.holds, hlt]

/-- The comparisons of any two values are coherent, those of integers and those of texts each make
up a total order, and that of texts is the lexicographic order of their bytes. -/
theorem comparisons_coherent :
    (∀ a b : Value, Coherent a b) ∧ Orders Value.int ∧ Orders Value.str ∧
    ∀ s t : String, (Value.str s).compare .lower (.str t) = .ok (Text.bytes s < Text.bytes t) := by
  refine ⟨coherent, ?_, ?_, compare_lower_str⟩
  · apply orders_of_key Int64.toInt
    intro x y
    rfl
  · apply orders_of_key (fun s : String => s)
    intro x y
    rfl

def notANumber : Float :=
  0 / 0

/-- A NaN differs from itself, an integer is equal to a double, a text is not ordered with a number
from either side, and texts go by their bytes: capitals first, letters beyond ASCII last. -/
theorem comparisons_coherent_mixedTypes :
    (Value.float notANumber).compare .notEqual (.float notANumber) = .ok true ∧
    (Value.int 2).compare .lowerEqual (.float 2) = .ok true ∧
    (Value.str "1").compare .greater (.int 1) =
      .error (.invalidOperands (.compare .greater) .string .int) ∧
    (Value.str "Z").compare .lower (.str "ä") = .ok true := by
  obtain ⟨hcoherent, _, hstr, hbytes⟩ := comparisons_coherent
  refine ⟨?_, ?_, ?_, ?_⟩
  · obtain ⟨same, hsame, hdiffer⟩ := (hcoherent (.float notANumber) (.float notANumber)).notEqual
    cases hsame.symm.trans (show _ = .ok false from rfl)
    exact hdiffer
  · obtain ⟨lower, same, _, hsame, hle⟩ :=
      (hcoherent (.int 2) (.float 2)).lowerEqual (by simp [Value.Mixed, Value.type])
    cases hsame.symm.trans (show _ = .ok true from rfl)
    rw [hle, Bool.or_true]
  · rw [(hcoherent (.str "1") (.int 1)).greater]
    rfl
  · apply hstr.trans "Z" "a" "ä"
    · rw [hbytes]
      exact congrArg Except.ok (by decide)
    · rw [hbytes]
      exact congrArg Except.ok (by decide)

end MiniC.Stack

import MiniC.Proofs.Decimal.ReadBack
import MiniC.Proofs.Text.Unambiguity
import MiniC.Register.Instr

/-!
# Listings of register code

A line of a listing is a number, a word that names the operation, and an operand. The word ends at
the first blank and no two operations share it, and each operand can be told from its text. If no
variable name holds a line feed, a line is written for each instruction, and the lines determine the
code.
-/

namespace MiniC.Register

set_option autoImplicit false

/-- What an instruction does, without its operand. -/
inductive Opcode where
  | loadReg | storeReg | loadInt | loadFloat | loadString | loadVar | storeVar | jump | jumpFalse
  | arith (op : Arith)
  | change (op : Change)
  deriving DecidableEq

namespace Opcode

def word : Opcode → String
  | .loadReg => "load_reg"
  | .storeReg => "store_reg"
  | .loadInt => "load_int"
  | .loadFloat => "load_float"
  | .loadString => "load_string"
  | .loadVar => "load_var"
  | .storeVar => "store_int"
  | .jump => "jump"
  | .jumpFalse => "jump_false"
  | .arith op => op.display
  | .change op => op.display

def all : List Opcode :=
  [.loadReg, .storeReg, .loadInt, .loadFloat, .loadString, .loadVar, .storeVar, .jump, .jumpFalse,
    .arith .add, .arith .sub, .arith .mul, .arith .div, .arith .mod,
    .change .negate, .change .logicalNegate, .change .increment, .change .decrement]

theorem mem_all (a : Opcode) : a ∈ all := by
  cases a with
  | arith op => cases op <;> decide
  | change op => cases op <;> decide
  | _ => decide

theorem blank_not_mem_word (a : Opcode) : ' ' ∉ a.word.toList := by
  have hall : ∀ b ∈ all, ' ' ∉ b.word.toList := by decide
  exact hall a (mem_all a)

theorem lineFeed_not_mem_word (a : Opcode) : '\n' ∉ a.word.toList := by
  have hall : ∀ b ∈ all, '\n' ∉ b.word.toList := by decide
  exact hall a (mem_all a)

theorem word_inj {a b : Opcode} (h : a.word = b.word) : a = b := by
  have hall : ∀ c ∈ all, ∀ d ∈ all, c.word = d.word → c = d := by decide
  exact hall a (mem_all a) b (mem_all b) h

end Opcode

namespace Instr

def opcode : Instr → Opcode
  | .loadReg _ => .loadReg
  | .storeReg _ => .storeReg
  | .loadInt _ => .loadInt
  | .loadFloat _ => .loadFloat
  | .loadString _ => .loadString
  | .loadVar _ => .loadVar
  | .arith op _ => .arith op
  | .change op => .change op
  | .storeVar _ => .storeVar
  | .jump _ => .jump
  | .jumpFalse _ => .jumpFalse

def operand : Instr → Option String
  | .loadReg r | .storeReg r | .arith _ r => some r.display
  | .loadInt n => some (toString n.toInt)
  | .loadFloat x => some (Decimal.plain x)
  | .loadString s => some (Text.quoted s)
  | .loadVar name | .storeVar name => some name
  | .jump target | .jumpFalse target => some (toString target)
  | .change _ => none

/-- The name that an instruction holds stays on its line. -/
def OneLine : Instr → Prop
  | .loadVar name | .storeVar name => '\n' ∉ name.toList
  | _ => True

def HoldsNumber : Instr → Prop
  | .loadFloat x => x.isNaN = false
  | _ => True

end Instr

def spaced : Option String → List Char
  | none => []
  | some text => ' ' :: text.toList

section Operands

variable {i j : Instr}

theorem display_eq (i : Instr) : i.display.toList = i.opcode.word.toList ++ spaced i.operand := by
  cases i <;> simp [Instr.display, Instr.opcode, Instr.operand, Opcode.word, spaced]

theorem head?_spaced (operand : Option String) :
    ∀ c ∈ (spaced operand).head?, ¬ (c ≠ ' ' : Bool) := by
  cases operand <;> simp [spaced]

theorem spaced_inj {a b : Option String} (h : spaced a = spaced b) : a = b := by
  cases a with
  | none =>
    cases b with
    | none => rfl
    | some b => cases h
  | some a =>
    cases b with
    | none => cases h
    | some b => rw [String.toList_injective (List.cons.inj h).2]

theorem Reg.display_inj {r s : Reg} (h : r.display = s.display) : r = s := by
  have hindex : toString r.index = toString s.index := by
    apply String.toList_injective
    have hlist := congrArg String.toList h
    simp only [Reg.display, String.toList_append] at hlist
    exact List.append_cancel_left hlist
  cases r
  cases s
  exact congrArg Reg.mk (Nat.repr_inj.mp hindex)

/-- The operation and the text of the operand determine the instruction. -/
theorem instr_eq (hi : i.HoldsNumber) (hj : j.HoldsNumber) (hopcode : i.opcode = j.opcode)
    (h : i.operand = j.operand) : i = j := by
  cases i <;> cases j <;> cases hopcode
  case loadReg.loadReg.refl r s => rw [Reg.display_inj (Option.some.inj h)]
  case storeReg.storeReg.refl r s => rw [Reg.display_inj (Option.some.inj h)]
  case loadInt.loadInt.refl m n =>
    rw [Int64.toInt_inj.mp (Int.repr_inj.mp (Option.some.inj h))]
  case loadFloat.loadFloat.refl x y => rw [Decimal.plain_inj hi hj (Option.some.inj h)]
  case loadString.loadString.refl s t => rw [Text.quoted_inj (Option.some.inj h)]
  case loadVar.loadVar.refl s t => rw [Option.some.inj h]
  case arith.arith.refl op r s => rw [Reg.display_inj (Option.some.inj h)]
  case change.change.refl op => rfl
  case storeVar.storeVar.refl s t => rw [Option.some.inj h]
  case jump.jump.refl m n => rw [Nat.repr_inj.mp (Option.some.inj h)]
  case jumpFalse.jumpFalse.refl m n => rw [Nat.repr_inj.mp (Option.some.inj h)]

theorem display_inj (hi : i.HoldsNumber) (hj : j.HoldsNumber) (h : i.display = j.display) :
    i = j := by
  have htext := congrArg String.toList h
  rw [display_eq, display_eq] at htext
  obtain ⟨hword, hoperand⟩ := Text.run_unique
    (Text.run_of_not_mem i.opcode.blank_not_mem_word) (head?_spaced i.operand)
    (Text.run_of_not_mem j.opcode.blank_not_mem_word) (head?_spaced j.operand) htext
  exact instr_eq hi hj (Opcode.word_inj (String.toList_injective hword)) (spaced_inj hoperand)

theorem lineFeed_not_mem_nat (n : Nat) : '\n' ∉ (toString n).toList :=
  Decimal.lineFeed_not_mem_toString n

theorem lineFeed_not_mem_reg (r : Reg) : '\n' ∉ r.display.toList := by
  have hindex := lineFeed_not_mem_nat r.index
  simp only [Reg.display, String.toList_append, List.mem_append, not_or]
  exact ⟨by decide, hindex⟩

theorem lineFeed_not_mem_operand (hi : i.OneLine) {text : String} (h : i.operand = some text) :
    '\n' ∉ text.toList := by
  cases i <;> cases h
  case loadReg.refl r => exact lineFeed_not_mem_reg r
  case storeReg.refl r => exact lineFeed_not_mem_reg r
  case loadInt.refl n => exact Decimal.lineFeed_not_mem_toString n.toInt
  case loadFloat.refl x => exact Decimal.lineFeed_not_mem_plain x
  case loadString.refl s => exact Text.lineFeed_not_mem_quoted s
  case loadVar.refl => exact hi
  case arith.refl op r => exact lineFeed_not_mem_reg r
  case storeVar.refl => exact hi
  case jump.refl n => exact lineFeed_not_mem_nat n
  case jumpFalse.refl n => exact lineFeed_not_mem_nat n

theorem lineFeed_not_mem_display (hi : i.OneLine) : '\n' ∉ i.display.toList := by
  rw [display_eq, List.mem_append, not_or]
  refine ⟨i.opcode.lineFeed_not_mem_word, ?_⟩
  cases hoperand : i.operand with
  | none => simp [spaced]
  | some text =>
    have htext := lineFeed_not_mem_operand hi hoperand
    simpa [spaced] using htext

end Operands

def lines (code : List Instr) : List (List Char) :=
  code.mapIdx fun index instr => (Text.numbered index instr.display).toList

section Lines

variable {code code' : List Instr}

theorem toList_numbered (n : Nat) (line : String) :
    (Text.numbered n line).toList = Text.fourDigits n ++ ' ' :: line.toList := by
  simp [Text.numbered]

theorem listing_eq_unlines (code : List Instr) :
    (listing code).toList = Text.unlines (lines code) := by
  rw [listing, String.toList_join, Text.unlines, lines, List.mapIdx_eq_zipIdx_map,
    List.mapIdx_eq_zipIdx_map, List.flatMap_map, List.flatMap_map]
  simp

theorem lineFeed_not_mem_lines (h : ∀ i ∈ code, i.OneLine) : ∀ line ∈ lines code, '\n' ∉ line := by
  intro line hline
  obtain ⟨index, hindex, rfl⟩ := List.mem_mapIdx.mp hline
  have hdisplay := lineFeed_not_mem_display (h _ (List.getElem_mem hindex))
  have hnumber : '\n' ∉ Text.fourDigits index := by
    apply Decimal.lineFeed_not_mem_of_isDigit
    exact Decimal.isDigit_append Decimal.isDigit_zeros Decimal.isDigit_toDigits
  rw [toList_numbered]
  simp [hnumber, hdisplay]

theorem lines_inj (h : ∀ i ∈ code, i.HoldsNumber) (h' : ∀ i ∈ code', i.HoldsNumber)
    (hlines : lines code = lines code') : code = code' := by
  apply List.ext_getElem?
  intro index
  have hline := congrArg (fun lines => lines[index]?) hlines
  simp only [lines, List.getElem?_mapIdx] at hline
  cases hi : code[index]? with
  | none =>
    rw [hi] at hline
    exact (Option.map_eq_none_iff.mp hline.symm).symm
  | some i =>
    rw [hi, Option.map_some] at hline
    obtain ⟨j, hj, hdisplay⟩ := Option.map_eq_some_iff.mp hline.symm
    rw [toList_numbered, toList_numbered] at hdisplay
    have hdisplay' := String.toList_injective (List.cons.inj (List.append_cancel_left hdisplay)).2
    rw [hj, display_inj (h' j (List.mem_of_getElem? hj)) (h i (List.mem_of_getElem? hi)) hdisplay']

end Lines

/-- The listing of a code whose names hold no line feed has one line for each instruction, and it
determines the code if no float in it is a NaN. -/
theorem listing_determines_code (code code' : List Instr) (hcode : ∀ i ∈ code, i.OneLine)
    (hcode' : ∀ i ∈ code', i.OneLine) :
    (listing code).toList = Text.unlines (lines code) ∧ (lines code).length = code.length ∧
      (∀ line ∈ lines code, '\n' ∉ line) ∧
      ((∀ i ∈ code, i.HoldsNumber) → (∀ i ∈ code', i.HoldsNumber) →
        listing code = listing code' → code = code') := by
  refine ⟨listing_eq_unlines code, List.length_mapIdx, lineFeed_not_mem_lines hcode, ?_⟩
  intro hnumber hnumber' h
  apply lines_inj hnumber hnumber'
  apply Text.unlines_inj (lineFeed_not_mem_lines hcode) (lineFeed_not_mem_lines hcode')
  rw [← listing_eq_unlines, ← listing_eq_unlines, h]

/-- A text that looks like a line end and another instruction, behind a negative zero. -/
def textWithLine : List Instr :=
  [.loadFloat (-0.0), .loadString "a\"\n0002 neg"]

/-- The instructions that the text imitates. -/
def imitatedLines : List Instr :=
  [.loadFloat (-0.0), .loadString "a", .change .negate]

theorem listing_determines_code_imitatedLines :
    (∀ i ∈ textWithLine, i.OneLine ∧ i.HoldsNumber) ∧
      (∀ i ∈ imitatedLines, i.OneLine ∧ i.HoldsNumber) ∧ (lines textWithLine).length = 2 ∧
      listing textWithLine ≠ listing imitatedLines := by
  have hline : ∀ i ∈ textWithLine, i.OneLine := by simp [textWithLine, Instr.OneLine]
  have hline' : ∀ i ∈ imitatedLines, i.OneLine := by simp [imitatedLines, Instr.OneLine]
  have hzero : (-0.0 : Float).isNaN = false := by decide +kernel
  have hnumber : ∀ i ∈ textWithLine, i.HoldsNumber :=
    List.forall_mem_cons.mpr ⟨hzero, List.forall_mem_singleton.mpr trivial⟩
  have hnumber' : ∀ i ∈ imitatedLines, i.HoldsNumber :=
    List.forall_mem_cons.mpr ⟨hzero, List.forall_mem_cons.mpr
      ⟨trivial, List.forall_mem_singleton.mpr trivial⟩⟩
  obtain ⟨_, hlength, _, hinj⟩ := listing_determines_code _ _ hline hline'
  refine ⟨fun i hi => ⟨hline i hi, hnumber i hi⟩, fun i hi => ⟨hline' i hi, hnumber' i hi⟩,
    hlength, ?_⟩
  intro h
  have hcode := congrArg List.length (hinj hnumber hnumber' h)
  cases hcode

end MiniC.Register

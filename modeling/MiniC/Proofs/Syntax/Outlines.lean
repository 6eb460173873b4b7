import MiniC.Proofs.Decimal.ReadBack
import MiniC.Proofs.Text.Unambiguity
import MiniC.Syntax.Outline

/-!
# Outlines determine programs

The lines of an outline and their indentation determine its tree: an item without parts ends with a
comma on its first line, an item with parts does not, and the line that closes the parts stands
further to the left than they do. A label and what follows it stand on one line, so the tree is
determined up to where a label ends. The trees of programs have their labels in fixed places, and so
they determine the program.
-/

namespace MiniC

set_option autoImplicit false

namespace Outline

mutual

/-- The same tree with every label joined to what follows it. -/
def bare : Outline → Outline
  | .leaf label text => .leaf [] (label ++ text)
  | .node label opening items closing => .node [] (label ++ opening) (bareItems items) closing

def bareItems : List Outline → List Outline
  | [] => []
  | item :: items => item.bare :: bareItems items

end

/-- Every part of the tree has its own lines. The first line of an item with parts does not end with
a comma, and they are closed by a single visible character. -/
inductive Lined : Outline → Prop where
  | leaf {label text : List Char} (hlabel : '\n' ∉ label) (htext : '\n' ∉ text) :
    Lined (.leaf label text)
  | node {label opening : List Char} {items : List Outline} {c : Char} (hlabel : '\n' ∉ label)
    (hopening : '\n' ∉ opening) (hlast : (label ++ opening).getLast? ≠ some ',')
    (hitems : ∀ item ∈ items, Lined item) (hc : c ≠ ' ') :
    Lined (.node label opening items [c])

def line : Outline → List Char
  | .leaf label text => label ++ text ++ [',']
  | .node label opening _ _ => label ++ opening

def afterLine (depth : Nat) (rest : List Char) : Outline → List Char
  | .leaf _ _ => rest
  | .node _ _ items closing =>
    writeItems (depth + 1) (indent depth ++ (closing ++ ',' :: '\n' :: rest)) items

section Lines

variable {o o₁ o₂ : Outline} {depth : Nat} {r₁ r₂ : List Char}

theorem write_eq_line (depth : Nat) (rest : List Char) (o : Outline) :
    write depth [','] rest o = indent depth ++ (o.line ++ '\n' :: o.afterLine depth rest) := by
  cases o with
  | leaf label text => simp [write, line, afterLine]
  | node label opening items closing => simp [write, line, afterLine]

theorem Lined.lineFeed_not_mem_line (h : o.Lined) : '\n' ∉ o.line := by
  cases h with
  | leaf hlabel htext => simp [line, hlabel, htext]
  | node hlabel hopening => simp [line, hlabel, hopening]

theorem line_of_write (h₁ : o₁.Lined) (h₂ : o₂.Lined)
    (h : write depth [','] r₁ o₁ = write depth [','] r₂ o₂) :
    o₁.line = o₂.line ∧ o₁.afterLine depth r₁ = o₂.afterLine depth r₂ := by
  rw [write_eq_line, write_eq_line] at h
  exact Text.line_inj h₁.lineFeed_not_mem_line h₂.lineFeed_not_mem_line (List.append_cancel_left h)

theorem indent_succ (depth : Nat) (s : List Char) :
    indent (depth + 1) ++ s = indent depth ++ ' ' :: (List.replicate 3 ' ' ++ s) := by
  have hlength : 4 * (depth + 1) = 4 * depth + 4 := by omega
  rw [indent, indent, hlength, List.replicate_add, List.append_assoc]
  rfl

/-- What closes the parts cannot be taken for one more part. -/
theorem closing_ne_write {c : Char} (hc : c ≠ ' ') :
    indent depth ++ c :: r₁ ≠ write (depth + 1) [','] r₂ o := by
  intro h
  rw [write_eq_line, indent_succ] at h
  exact hc (List.cons.inj (List.append_cancel_left h)).1

/-- Items of a level determine themselves and what closes them, if each of them determines itself
and what follows it. -/
theorem writeItems_inj {items₁ items₂ : List Outline} {c₁ c₂ : Char}
    (hinj : ∀ item ∈ items₁, ∀ o, o.Lined → ∀ s t,
      write (depth + 1) [','] s item = write (depth + 1) [','] t o → item.bare = o.bare ∧ s = t)
    (h₂ : ∀ item ∈ items₂, item.Lined) (hc₁ : c₁ ≠ ' ') (hc₂ : c₂ ≠ ' ')
    (h : writeItems (depth + 1) (indent depth ++ c₁ :: r₁) items₁ =
      writeItems (depth + 1) (indent depth ++ c₂ :: r₂) items₂) :
    bareItems items₁ = bareItems items₂ ∧ c₁ :: r₁ = c₂ :: r₂ := by
  induction items₁ generalizing items₂ with
  | nil =>
    cases items₂ with
    | nil => exact ⟨rfl, List.append_cancel_left h⟩
    | cons o₂ items₂ => exact absurd h (closing_ne_write hc₁)
  | cons o₁ items₁ ih =>
    cases items₂ with
    | nil => exact absurd h.symm (closing_ne_write hc₂)
    | cons o₂ items₂ =>
      rw [List.forall_mem_cons] at hinj h₂
      rw [writeItems, writeItems] at h
      obtain ⟨hitem, hrest⟩ := hinj.1 o₂ h₂.1 _ _ h
      obtain ⟨hitems, hclose⟩ := ih hinj.2 h₂.2 hrest
      rw [bareItems, bareItems, hitem, hitems]
      exact ⟨rfl, hclose⟩

theorem leaf_line_ne {label text line : List Char} (hlast : line.getLast? ≠ some ',') :
    label ++ text ++ [','] ≠ line := by
  rintro rfl
  exact hlast List.getLast?_concat

/-- An item determines itself and what follows it, up to where its labels end. -/
theorem write_inj (h₁ : o₁.Lined) (h₂ : o₂.Lined)
    (h : write depth [','] r₁ o₁ = write depth [','] r₂ o₂) : o₁.bare = o₂.bare ∧ r₁ = r₂ := by
  induction h₁ generalizing o₂ depth r₁ r₂ with
  | @leaf label₁ text₁ hlabel₁ htext₁ =>
    obtain ⟨hline, hafter⟩ := line_of_write (.leaf hlabel₁ htext₁) h₂ h
    cases h₂ with
    | leaf _ _ =>
      rw [bare, bare, List.append_cancel_right hline]
      exact ⟨rfl, hafter⟩
    | node _ _ hlast _ _ => exact absurd hline (leaf_line_ne hlast)
  | @node label₁ opening₁ items₁ c₁ hlabel₁ hopening₁ hlast₁ hitems₁ hc₁ ih =>
    obtain ⟨hline, hafter⟩ := line_of_write (.node hlabel₁ hopening₁ hlast₁ hitems₁ hc₁) h₂ h
    cases h₂ with
    | leaf _ _ => exact absurd hline.symm (leaf_line_ne hlast₁)
    | @node label₂ opening₂ items₂ c₂ _ _ _ hitems₂ hc₂ =>
      obtain ⟨hitems, hclose⟩ := writeItems_inj (fun item hitem o ho s t => ih item hitem ho)
        hitems₂ hc₁ hc₂ hafter
      cases hclose
      rw [bare, bare, hitems, show label₁ ++ opening₁ = label₂ ++ opening₂ from hline]
      exact ⟨rfl, rfl⟩

end Lines

section Parts

variable {label name name' text text' s s' : String} {inner inner' : Outline}
  {items items' : List Outline}

theorem bareItems_eq_map (items : List Outline) : bareItems items = items.map bare := by
  induction items with
  | nil => rfl
  | cons item items ih => rw [bareItems, List.map_cons, ih]

@[simp] theorem bare_record_eq_iff :
    (record label name items).bare = (record label name' items').bare ↔
      name = name' ∧ items.map bare = items'.map bare := by
  simp [record, bare, bareItems_eq_map, String.toList_inj]

@[simp] theorem bare_wrap_eq_iff :
    (wrap label name inner).bare = (wrap label name' inner').bare ↔
      name = name' ∧ inner.bare = inner'.bare := by
  simp [wrap, bare, bareItems_eq_map, String.toList_inj]

@[simp] theorem bare_record_ne_wrap :
    (record label name items).bare ≠ (wrap label name' inner).bare := by
  simp [record, wrap, bare]

@[simp] theorem bare_wrap_ne_record :
    (wrap label name' inner).bare ≠ (record label name items).bare :=
  bare_record_ne_wrap.symm

@[simp] theorem bare_word_eq_iff :
    (word label text).bare = (word label text').bare ↔ text = text' := by
  simp [word, bare, String.toList_inj]

@[simp] theorem bare_word_ne_wrap : (word label text).bare ≠ (wrap label name inner).bare := by
  simp [word, wrap, bare]

@[simp] theorem bare_wrap_ne_word : (wrap label name inner).bare ≠ (word label text).bare :=
  bare_word_ne_wrap.symm

@[simp] theorem bare_quoted_eq_iff : (quoted label s).bare = (quoted label s').bare ↔ s = s' := by
  constructor
  · intro h
    simp only [quoted, bare, leaf.injEq, true_and, List.append_cancel_left_eq] at h
    exact String.toList_injective (Text.quotedBy_inj (by decide) h)
  · rintro rfl
    rfl

@[simp] theorem bare_list_eq_iff :
    (list label items).bare = (list label items').bare ↔ items.map bare = items'.map bare := by
  cases items with
  | nil => cases items' <;> simp [list, bare]
  | cons item items => cases items' <;> simp [list, bare, bareItems_eq_map]

theorem lined_word (htext : '\n' ∉ text.toList) (hlabel : '\n' ∉ label.toList := by decide) :
    (word label text).Lined :=
  .leaf hlabel htext

theorem lined_quoted (s : String) (hlabel : '\n' ∉ label.toList := by decide) :
    (quoted label s).Lined :=
  .leaf hlabel (Text.lineFeed_not_mem_quotedBy (by decide) s.toList)

theorem lined_record (hitems : ∀ item ∈ items, item.Lined)
    (hlabel : '\n' ∉ label.toList := by decide) (hname : '\n' ∉ name.toList := by decide) :
    (record label name items).Lined :=
  .node hlabel (by simp [hname]) (by simp [← List.append_assoc]) hitems (by decide)

theorem lined_wrap (hinner : inner.Lined) (hlabel : '\n' ∉ label.toList := by decide)
    (hname : '\n' ∉ name.toList := by decide) : (wrap label name inner).Lined :=
  .node hlabel (by simp [hname]) (by simp [← List.append_assoc])
    (List.forall_mem_singleton.mpr hinner) (by decide)

theorem lined_list (hitems : ∀ item ∈ items, item.Lined)
    (hlabel : '\n' ∉ label.toList := by decide) : (list label items).Lined := by
  cases items with
  | nil => exact .leaf hlabel (by decide)
  | cons item items => exact .node hlabel (by decide) (by simp) hitems (by decide)

end Parts

end Outline

open Outline

def Expr.NoNaN : Expr → Prop
  | .float x => x.isNaN = false
  | .binary _ left right => left.NoNaN ∧ right.NoNaN
  | .unary _ operand => operand.NoNaN
  | .group inner => inner.NoNaN
  | _ => True

mutual

def Stmt.NoNaN : Stmt → Prop
  | .expr value | .define _ _ _ value | .assign _ _ value => value.NoNaN
  | .declare .. => True
  | .branch condition body otherwise => condition.NoNaN ∧ Stmt.NoNaNAll body ∧ otherwise.NoNaN
  | .loop condition body => condition.NoNaN ∧ Stmt.NoNaNAll body

def Stmt.NoNaNAll : List Stmt → Prop
  | [] => True
  | s :: block => s.NoNaN ∧ Stmt.NoNaNAll block

def Else.NoNaN : Else → Prop
  | .none => True
  | .block body => Stmt.NoNaNAll body
  | .branch condition body otherwise => condition.NoNaN ∧ Stmt.NoNaNAll body ∧ otherwise.NoNaN

end

section Names

theorem BinaryOp.name_inj {a b : BinaryOp} (h : a.name = b.name) : a = b := by
  cases a <;> cases b <;> simp [BinaryOp.name] at h ⊢

theorem UnaryOp.name_inj {a b : UnaryOp} (h : a.name = b.name) : a = b := by
  cases a <;> cases b <;> simp [UnaryOp.name] at h ⊢

theorem StepOp.name_inj {a b : StepOp} (h : a.name = b.name) : a = b := by
  cases a <;> cases b <;> simp [StepOp.name] at h ⊢

theorem AssignOp.name_inj {a b : AssignOp} (h : a.name = b.name) : a = b := by
  cases a <;> cases b <;> simp [AssignOp.name] at h ⊢

theorem toString_bool_inj {a b : Bool} (h : toString a = toString b) : a = b := by
  cases a <;> cases b <;> simp [toString] at h ⊢

end Names

section Lined

theorem BinaryOp.lineFeed_not_mem_name (op : BinaryOp) : '\n' ∉ op.name.toList := by
  cases op <;> decide

theorem UnaryOp.lineFeed_not_mem_name (op : UnaryOp) : '\n' ∉ op.name.toList := by
  cases op <;> decide

theorem StepOp.lineFeed_not_mem_name (op : StepOp) : '\n' ∉ op.name.toList := by
  cases op <;> decide

theorem AssignOp.lineFeed_not_mem_name (op : AssignOp) : '\n' ∉ op.name.toList := by
  cases op <;> decide

theorem Expr.lined_outline (e : Expr) {label : String}
    (hlabel : '\n' ∉ label.toList := by decide) : (e.outline label).Lined := by
  induction e generalizing label with
  | int n => exact lined_wrap (lined_word (Decimal.lineFeed_not_mem_toString n.toInt)) hlabel
  | float x =>
    have htext := Decimal.lineFeed_not_mem_write Decimal.readsBack_marked x
    exact lined_wrap (.leaf List.not_mem_nil htext) hlabel
  | string s => exact lined_wrap (lined_quoted s) hlabel
  | name s => exact lined_wrap (lined_quoted s) hlabel
  | binary op left right hleft hright =>
    refine lined_record ?_ hlabel
    simp only [List.forall_mem_cons]
    exact ⟨hleft (by decide), lined_word op.lineFeed_not_mem_name, hright (by decide), by simp⟩
  | unary op operand hoperand =>
    refine lined_record ?_ hlabel
    simp only [List.forall_mem_cons]
    exact ⟨lined_word op.lineFeed_not_mem_name, hoperand (by decide), by simp⟩
  | step op s =>
    refine lined_record ?_ hlabel
    simp only [List.forall_mem_cons]
    exact ⟨lined_quoted s, lined_word op.lineFeed_not_mem_name, by simp⟩
  | group inner hinner => exact lined_wrap (hinner (by decide)) hlabel

theorem lined_const (isConst : Bool) : (word "is_const: " (toString isConst)).Lined := by
  refine lined_word ?_
  cases isConst <;> decide

theorem lined_block {label : String} {items : List Outline} (hitems : ∀ item ∈ items, item.Lined)
    (hlabel : '\n' ∉ label.toList := by decide) :
    (record label "Block" [list "statements: " items]).Lined :=
  lined_record (List.forall_mem_singleton.mpr (lined_list hitems)) hlabel

mutual

theorem Stmt.lined_outline (s : Stmt) : s.outline.Lined := by
  cases s with
  | expr value =>
    rw [Stmt.outline]
    exact lined_wrap value.lined_outline
  | declare isConst type name =>
    rw [Stmt.outline]
    refine lined_record ?_
    simp only [List.forall_mem_cons]
    exact ⟨lined_const isConst, lined_quoted type, lined_quoted name, by simp⟩
  | define isConst type name value =>
    rw [Stmt.outline]
    refine lined_record ?_
    simp only [List.forall_mem_cons]
    exact ⟨lined_const isConst, lined_quoted type, lined_quoted name, value.lined_outline, by simp⟩
  | assign op name value =>
    rw [Stmt.outline]
    refine lined_record ?_
    simp only [List.forall_mem_cons]
    exact ⟨lined_quoted name, lined_word op.lineFeed_not_mem_name, value.lined_outline, by simp⟩
  | branch condition body otherwise =>
    rw [Stmt.outline]
    refine lined_wrap ?_
    refine lined_record ?_
    simp only [List.forall_mem_cons]
    exact ⟨condition.lined_outline, lined_block (Stmt.lined_outlines body), otherwise.lined_outline,
      by simp⟩
  | loop condition body =>
    rw [Stmt.outline]
    refine lined_record ?_
    simp only [List.forall_mem_cons]
    exact ⟨condition.lined_outline, lined_block (Stmt.lined_outlines body), by simp⟩

theorem Stmt.lined_outlines (block : List Stmt) : ∀ item ∈ Stmt.outlines block, item.Lined := by
  cases block with
  | nil => simp [Stmt.outlines]
  | cons s block =>
    rw [Stmt.outlines, List.forall_mem_cons]
    exact ⟨s.lined_outline, Stmt.lined_outlines block⟩

theorem Else.lined_outline (otherwise : Else) : otherwise.outline.Lined := by
  cases otherwise with
  | none =>
    rw [Else.outline]
    exact lined_word (by decide)
  | block body =>
    rw [Else.outline]
    refine lined_wrap ?_
    refine lined_wrap ?_
    exact lined_block (Stmt.lined_outlines body)
  | branch condition body otherwise =>
    rw [Else.outline]
    refine lined_wrap ?_
    refine lined_wrap ?_
    refine lined_record ?_
    simp only [List.forall_mem_cons]
    exact ⟨condition.lined_outline, lined_block (Stmt.lined_outlines body), otherwise.lined_outline,
      by simp⟩

end

end Lined

section Determined

/-- The outline of an expression determines it. -/
theorem Expr.eq_of_bare {e e' : Expr} {label : String} (he : e.NoNaN) (he' : e'.NoNaN)
    (h : (e.outline label).bare = (e'.outline label).bare) : e = e' := by
  induction e generalizing e' label with
  | int n =>
    cases e' with
    | int m =>
      simp only [Expr.outline, bare_wrap_eq_iff, bare_word_eq_iff, true_and] at h
      rw [Int64.toInt_inj.mp (Int.repr_inj.mp h)]
    | _ => simp [Expr.outline] at h
  | float x =>
    cases e' with
    | float y =>
      simp only [Expr.outline, bare_wrap_eq_iff, bare, leaf.injEq, List.nil_append, true_and] at h
      rw [Decimal.write_inj Decimal.readsBack_marked he he' h]
    | _ => simp [Expr.outline] at h
  | string s =>
    cases e' with
    | string t =>
      simp only [Expr.outline, bare_wrap_eq_iff, bare_quoted_eq_iff, true_and] at h
      rw [h]
    | _ => simp [Expr.outline] at h
  | name s =>
    cases e' with
    | name t =>
      simp only [Expr.outline, bare_wrap_eq_iff, bare_quoted_eq_iff, true_and] at h
      rw [h]
    | _ => simp [Expr.outline] at h
  | binary op left right hleft hright =>
    cases e' with
    | binary op' left' right' =>
      simp only [Expr.outline, bare_record_eq_iff, List.map_cons, List.cons.injEq, bare_word_eq_iff,
        true_and, and_true, List.map_nil] at h
      rw [hleft he.1 he'.1 h.1, BinaryOp.name_inj h.2.1, hright he.2 he'.2 h.2.2]
    | _ => simp [Expr.outline] at h
  | unary op operand hoperand =>
    cases e' with
    | unary op' operand' =>
      simp only [Expr.outline, bare_record_eq_iff, List.map_cons, List.cons.injEq, bare_word_eq_iff,
        true_and, and_true, List.map_nil] at h
      rw [UnaryOp.name_inj h.1, hoperand he (show operand'.NoNaN from he') h.2]
    | _ => simp [Expr.outline] at h
  | step op s =>
    cases e' with
    | step op' t =>
      simp only [Expr.outline, bare_record_eq_iff, List.map_cons, List.cons.injEq, bare_word_eq_iff,
        bare_quoted_eq_iff, true_and, and_true, List.map_nil] at h
      rw [h.1, StepOp.name_inj h.2]
    | _ => simp [Expr.outline] at h
  | group inner hinner =>
    cases e' with
    | group inner' =>
      simp only [Expr.outline, bare_wrap_eq_iff, true_and] at h
      rw [hinner he (show inner'.NoNaN from he') h]
    | _ => simp [Expr.outline] at h

mutual

theorem Stmt.eq_of_bare {s s' : Stmt} (hs : s.NoNaN) (hs' : s'.NoNaN)
    (h : s.outline.bare = s'.outline.bare) : s = s' := by
  cases s with
  | expr value =>
    cases s' with
    | expr value' =>
      simp only [Stmt.outline, bare_wrap_eq_iff, true_and] at h
      rw [Expr.eq_of_bare hs hs' h]
    | _ => simp [Stmt.outline] at h
  | declare isConst type name =>
    cases s' with
    | declare isConst' type' name' =>
      simp only [Stmt.outline, bare_record_eq_iff, List.map_cons, List.cons.injEq, bare_word_eq_iff,
        bare_quoted_eq_iff, true_and, and_true, List.map_nil] at h
      rw [toString_bool_inj h.1, h.2.1, h.2.2]
    | _ => simp [Stmt.outline] at h
  | define isConst type name value =>
    cases s' with
    | define isConst' type' name' value' =>
      simp only [Stmt.outline, bare_record_eq_iff, List.map_cons, List.cons.injEq, bare_word_eq_iff,
        bare_quoted_eq_iff, true_and, and_true, List.map_nil] at h
      rw [toString_bool_inj h.1, h.2.1, h.2.2.1, Expr.eq_of_bare hs hs' h.2.2.2]
    | _ => simp [Stmt.outline] at h
  | assign op name value =>
    cases s' with
    | assign op' name' value' =>
      simp only [Stmt.outline, bare_record_eq_iff, List.map_cons, List.cons.injEq, bare_word_eq_iff,
        bare_quoted_eq_iff, true_and, and_true, List.map_nil] at h
      rw [h.1, AssignOp.name_inj h.2.1, Expr.eq_of_bare hs hs' h.2.2]
    | _ => simp [Stmt.outline] at h
  | branch condition body otherwise =>
    cases s' with
    | branch condition' body' otherwise' =>
      simp only [Stmt.outline, bare_wrap_eq_iff, bare_record_eq_iff, bare_list_eq_iff,
        List.map_cons, List.cons.injEq, true_and, and_true, List.map_nil] at h
      rw [Expr.eq_of_bare hs.1 hs'.1 h.1, Stmt.eq_of_bareAll hs.2.1 hs'.2.1 h.2.1,
        Else.eq_of_bare hs.2.2 hs'.2.2 h.2.2]
    | _ => simp [Stmt.outline] at h
  | loop condition body =>
    cases s' with
    | loop condition' body' =>
      simp only [Stmt.outline, bare_record_eq_iff, bare_list_eq_iff, List.map_cons, List.cons.injEq,
        true_and, and_true, List.map_nil] at h
      rw [Expr.eq_of_bare hs.1 hs'.1 h.1, Stmt.eq_of_bareAll hs.2 hs'.2 h.2]
    | _ => simp [Stmt.outline] at h

theorem Stmt.eq_of_bareAll {block block' : List Stmt} (hb : Stmt.NoNaNAll block)
    (hb' : Stmt.NoNaNAll block')
    (h : (Stmt.outlines block).map bare = (Stmt.outlines block').map bare) : block = block' := by
  cases block with
  | nil =>
    cases block' with
    | nil => rfl
    | cons s' block' => simp [Stmt.outlines] at h
  | cons s block =>
    cases block' with
    | nil => simp [Stmt.outlines] at h
    | cons s' block' =>
      simp only [Stmt.outlines, List.map_cons, List.cons.injEq] at h
      rw [Stmt.eq_of_bare hb.1 hb'.1 h.1, Stmt.eq_of_bareAll hb.2 hb'.2 h.2]

theorem Else.eq_of_bare {otherwise otherwise' : Else} (ho : otherwise.NoNaN)
    (ho' : otherwise'.NoNaN) (h : otherwise.outline.bare = otherwise'.outline.bare) :
    otherwise = otherwise' := by
  cases otherwise with
  | none =>
    cases otherwise' with
    | none => rfl
    | _ => simp [Else.outline] at h
  | block body =>
    cases otherwise' with
    | block body' =>
      simp only [Else.outline, bare_wrap_eq_iff, bare_record_eq_iff, bare_list_eq_iff,
        List.map_cons, List.cons.injEq, true_and, and_true, List.map_nil] at h
      rw [Stmt.eq_of_bareAll ho ho' h]
    | _ => simp [Else.outline] at h
  | branch condition body otherwise =>
    cases otherwise' with
    | branch condition' body' otherwise' =>
      simp only [Else.outline, bare_wrap_eq_iff, bare_record_eq_iff, bare_list_eq_iff,
        List.map_cons, List.cons.injEq, true_and, and_true, List.map_nil] at h
      rw [Expr.eq_of_bare ho.1 ho'.1 h.1, Stmt.eq_of_bareAll ho.2.1 ho'.2.1 h.2.1,
        Else.eq_of_bare ho.2.2 ho'.2.2 h.2.2]
    | _ => simp [Else.outline] at h

end

end Determined

theorem Program.text_toList (p : Program) :
    p.text.toList = "Program ".toList ++ '{' :: '\n' ::
      write 1 [','] ['}', '\n'] (list "statements: " (Stmt.outlines p)) := by
  simp [Program.text, Program.outline, Outline.text, record, write, writeItems, indent]

/-- Two programs without NaNs that have the same outline are the same. -/
theorem Program.text_determines_program (p q : Program) (hp : Stmt.NoNaNAll p)
    (hq : Stmt.NoNaNAll q) (h : p.text = q.text) : p = q := by
  have hlist : ∀ r : Program, (list "statements: " (Stmt.outlines r)).Lined :=
    fun r => lined_list (Stmt.lined_outlines r)
  have htext := congrArg String.toList h
  rw [Program.text_toList, Program.text_toList] at htext
  have hitem := (List.cons.inj (List.cons.inj (List.append_cancel_left htext)).2).2
  have hbare := (write_inj (hlist p) (hlist q) hitem).1
  exact Stmt.eq_of_bareAll hp hq (bare_list_eq_iff.mp hbare)

/-- A condition with a text that looks like the end of a value and of its line. -/
def closingCondition : Expr :=
  .binary .equal (.string "\",\n)") (.float (-0.0))

def elseIf : Program :=
  [.branch closingCondition [] (.branch closingCondition [] .none)]

def elseBlock : Program :=
  [.branch closingCondition [] (.block [.branch closingCondition [] .none])]

theorem Program.text_determines_program_elseIf :
    Stmt.NoNaNAll elseIf ∧ Stmt.NoNaNAll elseBlock ∧
      Program.text elseIf ≠ Program.text elseBlock := by
  have hzero : (-0.0 : Float).isNaN = false := by decide +kernel
  have hcondition : closingCondition.NoNaN := ⟨trivial, hzero⟩
  have hif : Stmt.NoNaNAll elseIf :=
    ⟨⟨hcondition, trivial, hcondition, trivial, trivial⟩, trivial⟩
  have hblock : Stmt.NoNaNAll elseBlock :=
    ⟨⟨hcondition, trivial, ⟨hcondition, trivial, trivial⟩, trivial⟩, trivial⟩
  refine ⟨hif, hblock, ?_⟩
  intro h
  have heq := Program.text_determines_program elseIf elseBlock hif hblock h
  simp [elseIf, elseBlock] at heq

end MiniC

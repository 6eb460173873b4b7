import MiniC.Decimal.Notation
import MiniC.Syntax.Basic
import MiniC.Text.Output

/-!
# Outlines of programs

A program as an indented tree, one constructor, field or value a line.
-/

namespace MiniC

set_option autoImplicit false

/-- A tree to be written with one item a line. Every item may carry a label. -/
inductive Outline where
  | leaf (label text : List Char)
  | node (label opening : List Char) (items : List Outline) (closing : List Char)

namespace Outline

def indent (depth : Nat) : List Char :=
  List.replicate (4 * depth) ' '

mutual

/-- An item that starts at level `depth` and ends with `mark`, followed by `rest`. -/
def write (depth : Nat) (mark : List Char) (rest : List Char) : Outline → List Char
  | .leaf label text => indent depth ++ (label ++ (text ++ (mark ++ '\n' :: rest)))
  | .node label opening items closing =>
    indent depth ++ (label ++ (opening ++ '\n' ::
      writeItems (depth + 1) (indent depth ++ (closing ++ (mark ++ '\n' :: rest))) items))

/-- Items at level `depth`, each with a comma behind it, followed by `rest`. -/
def writeItems (depth : Nat) (rest : List Char) : List Outline → List Char
  | [] => rest
  | item :: items => write depth [','] (writeItems depth rest items) item

end

/-- The text of an outline; its last line ends with a line feed. -/
def text (o : Outline) : List Char :=
  o.write 0 [] []

/-- A named value with labelled fields. -/
def record (label name : String) (fields : List Outline) : Outline :=
  .node label.toList (name.toList ++ [' ', '{']) fields ['}']

/-- A named value around a single other one. -/
def wrap (label name : String) (inner : Outline) : Outline :=
  .node label.toList (name.toList ++ ['(']) [inner] [')']

def list (label : String) : List Outline → Outline
  | [] => .leaf label.toList ['[', ']']
  | items => .node label.toList ['['] items [']']

def word (label text : String) : Outline :=
  .leaf label.toList text.toList

def quoted (label s : String) : Outline :=
  .leaf label.toList (Text.quotedBy '"' s.toList)

end Outline

open Outline

def Expr.outline (label : String) : Expr → Outline
  | .int n => wrap label "Int" (word "" (toString n.toInt))
  | .float x => wrap label "Float" (.leaf [] (Decimal.Layout.marked.write x))
  | .string s => wrap label "String" (quoted "" s)
  | .name s => wrap label "Identifier" (quoted "" s)
  | .binary op left right =>
    record label "Binary" [left.outline "left: ", word "op: " op.name, right.outline "right: "]
  | .unary op operand => record label "Prefix" [word "op: " op.name, operand.outline "operand: "]
  | .step op s => record label "PostfixIncrement" [quoted "identifier: " s, word "op: " op.name]
  | .group inner => wrap label "Grouping" (inner.outline "")

mutual

def Stmt.outline : Stmt → Outline
  | .expr value => wrap "" "Expression" (value.outline "")
  | .declare isConst type name =>
    record "" "VariableDeclaration"
      [word "is_const: " (toString isConst), quoted "ty: " type, quoted "name: " name]
  | .define isConst type name value =>
    record "" "VariableDefinition"
      [word "is_const: " (toString isConst), quoted "ty: " type, quoted "name: " name,
        value.outline "value: "]
  | .assign op name value =>
    record "" "VariableAssignment"
      [quoted "name: " name, word "kind: " op.name, value.outline "value: "]
  | .branch condition body otherwise =>
    wrap "" "Conditional"
      (record "" "Conditional"
        [condition.outline "condition: ",
          record "then_block: " "Block" [list "statements: " (Stmt.outlines body)],
          otherwise.outline])
  | .loop condition body =>
    record "" "WhileLoop"
      [condition.outline "condition: ",
        record "body: " "Block" [list "statements: " (Stmt.outlines body)]]

def Stmt.outlines : List Stmt → List Outline
  | [] => []
  | s :: block => s.outline :: Stmt.outlines block

def Else.outline : Else → Outline
  | .none => word "else_branch: " "None"
  | .block body =>
    wrap "else_branch: " "Some"
      (wrap "" "Block" (record "" "Block" [list "statements: " (Stmt.outlines body)]))
  | .branch condition body otherwise =>
    wrap "else_branch: " "Some"
      (wrap "" "Conditional"
        (record "" "Conditional"
          [condition.outline "condition: ",
            record "then_block: " "Block" [list "statements: " (Stmt.outlines body)],
            otherwise.outline]))

end

def Program.outline (p : Program) : Outline :=
  record "" "Program" [list "statements: " (Stmt.outlines p)]

def Program.text (p : Program) : String :=
  String.ofList p.outline.text

end MiniC

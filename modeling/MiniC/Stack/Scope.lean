import MiniC.Stack.Instr
import Std.Data.ExtTreeMap

/-!
# Scopes

A scope binds names to variables and functions. It is a finite map: two scopes with the same
bindings are equal, whatever built them. Names are listed in the order of their UTF-8 bytes.
-/

namespace MiniC.Stack

set_option autoImplicit false

/-- A function is code that can be run in any scope. -/
structure Function where
  code : List Instr
  deriving DecidableEq

inductive Binding where
  | variable (value : Value)
  | function (f : Function)
  deriving DecidableEq

def Binding.display : Binding → String
  | .variable value => value.display
  | .function _ => "<function>"

structure Scope where
  bindings : Std.ExtTreeMap String Binding

namespace Scope

def empty : Scope :=
  ⟨∅⟩

def get? (s : Scope) (name : String) : Option Binding :=
  s.bindings[name]?

def has (s : Scope) (name : String) : Bool :=
  s.bindings.contains name

def size (s : Scope) : Nat :=
  s.bindings.size

def isEmpty (s : Scope) : Bool :=
  s.bindings.isEmpty

/-- Binds `name`; an earlier binding of it is lost. -/
def set (s : Scope) (name : String) (binding : Binding) : Scope :=
  ⟨s.bindings.insert name binding⟩

def setVariable (s : Scope) (name : String) (value : Value) : Scope :=
  s.set name (.variable value)

def setFunction (s : Scope) (name : String) (f : Function) : Scope :=
  s.set name (.function f)

/-- The bindings of `s` and `other`; on a name bound in both, `other` wins. -/
def extend (s other : Scope) : Scope :=
  other.bindings.toList.foldl (fun scope entry => scope.set entry.1 entry.2) s

/-- The variables of a list; later entries win. -/
def ofVariables (entries : List (String × Value)) : Scope :=
  entries.foldl (fun scope entry => scope.setVariable entry.1 entry.2) empty

/-- The bound names in order, each with its binding as text. -/
def dump (s : Scope) : List (String × String) :=
  s.bindings.toList.map fun entry => (entry.1, entry.2.display)

end Scope

end MiniC.Stack

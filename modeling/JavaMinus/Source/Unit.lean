import JavaMinus.Source.Symbols

/-!
# Compilation units

A unit is what the checker of a program hands on: the tree, the symbol table and the reports of the
check. A unit with an error among its reports is not compiled.
-/

namespace JavaMinus.Source

inductive Level where
  | error
  | warning
deriving DecidableEq, Inhabited

def Level.text : Level → String
  | .error => "error"
  | .warning => "warning"

structure Report where
  level : Level
  message : String
  span : Option Span := none
deriving DecidableEq, Inhabited

namespace Report

def isError (r : Report) : Bool :=
  r.level == .error

/-- The line shown to the user; the span is left out if there is none. -/
def text (r : Report) : String :=
  match r.span with
  | some s => r.level.text ++ " at " ++ s.text ++ ": " ++ r.message
  | none => r.level.text ++ ": " ++ r.message

end Report

structure CompilationUnit where
  program : Program
  symbols : SymbolTable
  reports : List Report := []
deriving Inhabited

def CompilationUnit.errorCount (u : CompilationUnit) : Nat :=
  u.reports.countP Report.isError

end JavaMinus.Source

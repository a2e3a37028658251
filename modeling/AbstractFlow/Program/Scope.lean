import AbstractFlow.Program.Statement

/-!
# Scopes

A program is a list of scopes, each the body of a module, a class or a function under its
qualified name.
-/
namespace AbstractFlow

inductive ScopeKind where
  | module
  | classBody
  | function
deriving DecidableEq

def ScopeKind.name : ScopeKind → String
  | .module => "module"
  | .classBody => "class"
  | .function => "function"

/-- A scope; its parent is the name of the scope around it. -/
structure Scope where
  name : String
  kind : ScopeKind
  parent : String
  params : List String
  bases : List String
  decorators : List String
  async : Bool
  body : List Stmt
deriving DecidableEq

def Scope.hasDecorator (s : Scope) (name : String) : Bool := s.decorators.contains name

def Scope.emptyModule (name : String) : Scope := ⟨name, .module, "", [], [], [], false, []⟩

structure Program where
  scopes : List Scope

def Program.scope? (p : Program) (name : String) : Option Scope := p.scopes.find? (·.name = name)

end AbstractFlow

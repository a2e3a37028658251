import AbstractFlow.Program.Scope
import AbstractFlow.Yaml.Decode

/-!
# Reading programs

A program is a document with a list of scopes, each with a list of statements. The document is
read as a whole first; then the scopes are made from it in order, up to the first fault.
-/
namespace AbstractFlow

open Yaml (Datum Node Read)

structure RawComparison where
  left : Datum := .null
  op : String := ""
  right : Datum := .null

structure RawTest where
  name : String := ""
  value : Datum := .null
  compare : Option RawComparison := none

structure RawStmt where
  kind : ByteString := .ofString ""
  target : String := ""
  value : Datum := .null
  object : String := ""
  attr : String := ""
  index : String := ""
  callee : String := ""
  receiver : String := ""
  args : List String := []
  kwargs : List (Datum × Datum) := []
  label : String := ""
  test : Option RawTest := none
  name : String := ""
  bases : List String := []
  names : List String := []
  operands : List String := []
  type : ByteString := .ofString ""
  elems : List String := []
  keys : List String := []

structure RawScope where
  name : String := ""
  kind : ByteString := .ofString ""
  parent : String := ""
  params : List String := []
  bases : List String := []
  decorators : List String := []
  async : Bool := false
  body : List RawStmt := []

def RawComparison.fields : Read.Fields RawComparison
  | "left" => some (Read.field Read.anything fun c d => { c with left := d })
  | "op" => some (Read.field Read.string fun c s => { c with op := s })
  | "right" => some (Read.field Read.anything fun c d => { c with right := d })
  | _ => none

def RawTest.fields : Read.Fields RawTest
  | "name" => some (Read.field Read.string fun t s => { t with name := s })
  | "value" => some (Read.field Read.anything fun t d => { t with value := d })
  | "compare" => some fun n t => do
    let c ← Read.optionalRecord "pythonir.rawCompare" RawComparison.fields {} n t.compare
    pure { t with compare := c }
  | _ => none

def RawStmt.fields : Read.Fields RawStmt
  | "kind" => some (Read.field Read.byteString fun r s => { r with kind := s })
  | "target" => some (Read.field Read.string fun r s => { r with target := s })
  | "value" => some (Read.field Read.anything fun r d => { r with value := d })
  | "object" => some (Read.field Read.string fun r s => { r with object := s })
  | "attr" => some (Read.field Read.string fun r s => { r with attr := s })
  | "index" => some (Read.field Read.string fun r s => { r with index := s })
  | "callee" => some (Read.field Read.string fun r s => { r with callee := s })
  | "receiver" => some (Read.field Read.string fun r s => { r with receiver := s })
  | "args" => some (Read.field Read.strings fun r l => { r with args := l })
  | "kwargs" => some (Read.field Read.pairs fun r l => { r with kwargs := l })
  | "label" => some (Read.field Read.string fun r s => { r with label := s })
  | "test" => some fun n r => do
    let t ← Read.optionalRecord "pythonir.rawTest" RawTest.fields {} n r.test
    pure { r with test := t }
  | "name" => some (Read.field Read.string fun r s => { r with name := s })
  | "bases" => some (Read.field Read.strings fun r l => { r with bases := l })
  | "names" => some (Read.field Read.strings fun r l => { r with names := l })
  | "operands" => some (Read.field Read.strings fun r l => { r with operands := l })
  | "type" => some (Read.field Read.byteString fun r s => { r with type := s })
  | "elems" => some (Read.field Read.strings fun r l => { r with elems := l })
  | "keys" => some (Read.field Read.strings fun r l => { r with keys := l })
  | _ => none

def RawScope.fields : Read.Fields RawScope
  | "name" => some (Read.field Read.string fun r s => { r with name := s })
  | "kind" => some (Read.field Read.byteString fun r s => { r with kind := s })
  | "parent" => some (Read.field Read.string fun r s => { r with parent := s })
  | "params" => some (Read.field Read.strings fun r l => { r with params := l })
  | "bases" => some (Read.field Read.strings fun r l => { r with bases := l })
  | "decorators" => some (Read.field Read.strings fun r l => { r with decorators := l })
  | "async" => some (Read.field Read.bool fun r b => { r with async := b })
  | "body" =>
    some (Read.field
      (Read.listOf "[]pythonir.rawStmt" (Read.record "pythonir.rawStmt" RawStmt.fields {} {}))
      fun r l => { r with body := l })
  | _ => none

def rawProgramFields : Read.Fields (List RawScope)
  | "scopes" =>
    some (Read.field
      (Read.listOf "[]pythonir.rawScope" (Read.record "pythonir.rawScope" RawScope.fields {} {}))
      fun _ l => l)
  | _ => none

inductive StatementFault where
  | notAName (d : Datum)
  | notALiteral (d : Datum)
  | unknownContainer (type : ByteString)
  | missingCallee
  | missingTest
  | missingLabel (kind : String)
  | unknownKind (kind : ByteString)

def StatementFault.message : StatementFault → String
  | .notAName d => "expected a variable name, got " ++ d.shown ++ " (" ++ d.typeName ++ ")"
  | .notALiteral d => "unsupported literal " ++ d.shown ++ " (" ++ d.typeName ++ ")"
  | .unknownContainer t => "unknown container type " ++ t.quote
  | .missingCallee => "call without a callee"
  | .missingTest => "conditional jump without a test"
  | .missingLabel kind => kind ++ " without a label"
  | .unknownKind kind => "unknown statement kind " ++ kind.quote

inductive ProgramFault where
  | document (fault : Yaml.ReadFault)
  | unnamedScope
  | unknownScopeKind (scope : String) (kind : ByteString)
  | statement (scope : String) (index : Nat) (fault : StatementFault)

def ProgramFault.message : ProgramFault → String
  | .document f => f.message "program"
  | .unnamedScope => "scope without a name"
  | .unknownScopeKind scope kind => "scope " ++ scope ++ ": unknown kind " ++ kind.quote
  | .statement scope i f => "scope " ++ scope ++ ", statement " ++ toString i ++ ": " ++ f.message

namespace RawStmt

def nameOf : Datum → Except StatementFault String
  | .null => .ok ""
  | .text s => .ok s.text
  | d => .error (.notAName d)

/-- Integers beyond 63 bits wrap around to negative ones. -/
def literalOf : Datum → Except StatementFault Literal
  | .null => .ok .none
  | .bool b => .ok (.bool b)
  | .int n => .ok (.int n)
  | .unsigned n => .ok (.int ((n : Int) - (Word.size : Int)))
  | .float x => .ok (.float x)
  | .text s => .ok (.str s)
  | d => .error (.notALiteral d)

private def lookupText (key : String) (entries : List (Datum × Datum)) : Option Datum :=
  (entries.find? fun e => e.1.sameKey (.text (.ofString key))).map Prod.snd

/-- Text is a variable; a mapping gives a variable by `name` or a literal by `value`. -/
def operandOf : Datum → Except StatementFault Operand
  | .text s => .ok (.variable s.text)
  | .map entries =>
    match lookupText "name" entries with
    | some d => (nameOf d).map .variable
    | none => (literalOf ((lookupText "value" entries).getD .null)).map .literal
  | d => (literalOf d).map .literal

def testOf : Option RawTest → Except StatementFault Test
  | none => .error .missingTest
  | some t =>
    match t.compare with
    | some c => do
      let left ← operandOf c.left
      let right ← operandOf c.right
      .ok (.compare left c.op right)
    | none => if t.name ≠ "" then .ok (.name t.name) else (literalOf t.value).map .literal

def containerOf (type : ByteString) : Except StatementFault ContainerType :=
  match type.text with
  | "list" => .ok .list
  | "tuple" => .ok .tuple
  | "set" => .ok .set
  | "dict" => .ok .dict
  | _ => .error (.unknownContainer type)

def jumpOf (sense : Bool) (r : RawStmt) : Except StatementFault Stmt := do
  let t ← testOf r.test
  if r.label = "" then .error (.missingLabel r.kind.text) else .ok (.jump sense t r.label)

def callOf (r : RawStmt) : Except StatementFault Stmt := do
  let kwargs ← r.kwargs.mapM fun (k, v) => (nameOf v).map fun v => (k.shown, v)
  if r.callee = "" then .error .missingCallee
  else .ok (.call ⟨r.target, r.callee, r.receiver, r.args, kwargs⟩)

def toStmt (r : RawStmt) : Except StatementFault Stmt :=
  match r.kind.text with
  | "assign" => (nameOf r.value).map (.assign r.target)
  | "const" => (literalOf r.value).map (.const r.target)
  | "build" => (containerOf r.type).map fun t => .build r.target t r.elems r.keys
  | "attr_store" => (nameOf r.value).map (.attrStore r.object r.attr)
  | "attr_load" => .ok (.attrLoad r.target r.object r.attr)
  | "subscript_store" => (nameOf r.value).map (.subscriptStore r.object r.index)
  | "subscript_load" => .ok (.subscriptLoad r.target r.object r.index)
  | "call" => callOf r
  | "return" => (nameOf r.value).map .ret
  | "raise" => (nameOf r.value).map .raise
  | "yield" => (nameOf r.value).map (.yield r.target)
  | "await" => (nameOf r.value).map (.await r.target)
  | "jump_if_true" => jumpOf true r
  | "jump_if_false" => jumpOf false r
  | "goto" => .ok (.goto r.label)
  | "label" => .ok (.label r.name)
  | "class_def" => .ok (.classDef r.target r.name r.bases)
  | "function_def" => .ok (.functionDef r.target r.name)
  | "delete" => .ok (.delete r.names)
  | "opaque" => .ok (.expr r.target r.operands)
  | _ => .error (.unknownKind r.kind)

end RawStmt

namespace RawScope

def kindOf (r : RawScope) : Except ProgramFault ScopeKind :=
  match r.kind.text with
  | "" | "module" => .ok .module
  | "class" => .ok .classBody
  | "function" => .ok .function
  | _ => .error (.unknownScopeKind r.name r.kind)

def toScope (r : RawScope) : Except ProgramFault Scope := do
  if r.name = "" then .error .unnamedScope
  else
    let kind ← r.kindOf
    let body ← r.body.zipIdx.mapM fun (s, i) => s.toStmt.mapError (.statement r.name i)
    .ok ⟨r.name, kind, r.parent, r.params, r.bases, r.decorators, r.async, body⟩

end RawScope

def Program.decode (text : String) : Except ProgramFault Program := do
  let raw ← (Yaml.readDocument
    (Read.record "pythonir.rawProgram" rawProgramFields [] []) [] text).mapError .document
  let scopes ← raw.mapM RawScope.toScope
  .ok ⟨scopes⟩

end AbstractFlow

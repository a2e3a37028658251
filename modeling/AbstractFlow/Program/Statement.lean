import AbstractFlow.Collection.Dict
import AbstractFlow.Number.Decimal
import AbstractFlow.Text.Blank
import AbstractFlow.Text.ByteString
import AbstractFlow.Value.Object

/-!
# Statements

Programs are lists of three-address statements: every statement reads and writes variables, and
control passes from one to the next, or to a label. A statement knows the variables it assigns,
reads and deletes.
-/
namespace AbstractFlow

inductive Literal where
  | none
  | int (n : Int)
  | float (x : Number)
  | str (s : ByteString)
  | bool (b : Bool)
deriving DecidableEq

def Literal.text : Literal → String
  | .none => "None"
  | .int n => toString n
  | .float x => x.text
  | .str s => s.quote
  | .bool b => if b then "True" else "False"

inductive Operand where
  | variable (name : String)
  | literal (l : Literal)
deriving DecidableEq

def Operand.text : Operand → String
  | .variable name => name
  | .literal l => l.text

/-- The variable an operand reads; a literal reads none. -/
def Operand.name : Operand → String
  | .variable name => name
  | .literal _ => ""

inductive Test where
  | name (n : String)
  | literal (l : Literal)
  | compare (left : Operand) (op : String) (right : Operand)
deriving DecidableEq

def Test.uses : Test → List String
  | .name n => Names.distinct [n]
  | .literal _ => []
  | .compare l _ r => Names.distinct [l.name, r.name]

def Test.text : Test → String
  | .name n => n
  | .literal l => l.text
  | .compare l op r => l.text ++ " " ++ op ++ " " ++ r.text

/-- A call; an absent target, or a callee that was not loaded from an object, is the empty name.
Keyword arguments are pairs of a parameter's name and a variable. -/
structure Call where
  target : String
  callee : String
  receiver : String
  args : List String
  kwargs : List (String × String)
deriving DecidableEq

inductive Stmt where
  | assign (target value : String)
  | const (target : String) (value : Literal)
  | build (target : String) (type : ContainerType) (elems keys : List String)
  | attrStore (object attr value : String)
  | attrLoad (target object attr : String)
  | subscriptStore (object index value : String)
  | subscriptLoad (target object index : String)
  | call (c : Call)
  | ret (value : String)
  | raise (value : String)
  | yield (target value : String)
  | await (target value : String)
  /-- Jumps to the label if the test comes out as `sense`. -/
  | jump (sense : Bool) (test : Test) (label : String)
  | goto (label : String)
  | label (name : String)
  | classDef (target name : String) (bases : List String)
  | functionDef (target name : String)
  | delete (names : List String)
  /-- An expression that is not evaluated, by the variables it reads. -/
  | expr (target : String) (operands : List String)
deriving DecidableEq

namespace Stmt

/-- The variable a statement assigns; the empty name if there is none. -/
def target : Stmt → String
  | .assign t _ | .const t _ | .build t .. | .attrLoad t .. | .subscriptLoad t .. | .yield t _
  | .await t _ | .classDef t .. | .functionDef t _ | .expr t _ => t
  | .call c => c.target
  | _ => ""

def defs (s : Stmt) : List String := Names.distinct [s.target]

def uses : Stmt → List String
  | .assign _ v | .ret v | .raise v | .yield _ v | .await _ v => Names.distinct [v]
  | .build _ _ elems keys => Names.distinct (keys ++ elems)
  | .attrStore o _ v => Names.distinct [o, v]
  | .attrLoad _ o _ => Names.distinct [o]
  | .subscriptStore o i v => Names.distinct [o, i, v]
  | .subscriptLoad _ o i => Names.distinct [o, i]
  | .call c => Names.distinct (c.callee :: c.receiver :: c.args ++ c.kwargs.map Prod.snd)
  | .jump _ t _ => t.uses
  | .expr _ os => Names.distinct os
  | .const .. | .goto _ | .label _ | .classDef .. | .functionDef .. | .delete _ => []

def dels : Stmt → List String
  | .delete ns => Names.distinct ns
  | _ => []

/-- Whether a statement chooses its own successors or is a place to jump to. -/
def isControlTransfer : Stmt → Bool
  | .jump .. | .goto _ | .label _ => true
  | _ => false

private def entryText (keys elems : List String) : List String :=
  keys.zipIdx.map fun (k, i) => k ++ ": " ++ elems.getD i ""

def text : Stmt → String
  | .assign t v => t ++ " = " ++ v
  | .const t l => t ++ " = " ++ l.text
  | .build t .dict elems keys =>
    t ++ " = \x7b" ++ ", ".intercalate (entryText keys elems) ++ "\x7d"
  | .build t type elems _ => t ++ " = " ++ type.name ++ "(" ++ ", ".intercalate elems ++ ")"
  | .attrStore o a v => o ++ "." ++ a ++ " = " ++ v
  | .attrLoad t o a => t ++ " = " ++ o ++ "." ++ a
  | .subscriptStore o i v => o ++ "[" ++ i ++ "] = " ++ v
  | .subscriptLoad t o i => t ++ " = " ++ o ++ "[" ++ i ++ "]"
  | .call c =>
    let args := c.args ++ c.kwargs.map fun (n, v) => n ++ "=" ++ v
    (if c.target = "" then "" else c.target ++ " = ") ++ c.callee ++ "(" ++
      ", ".intercalate args ++ ")"
  | .ret v => Text.trimBlanks ("return " ++ v)
  | .raise v => Text.trimBlanks ("raise " ++ v)
  | .yield t v => t ++ " = yield " ++ v
  | .await t v => t ++ " = await " ++ v
  | .jump sense test l => (if sense then "if " else "if not ") ++ test.text ++ " goto " ++ l
  | .goto l => "goto " ++ l
  | .label n => n ++ ":"
  | .classDef t n bases => "class " ++ t ++ "(" ++ ", ".intercalate bases ++ ") -> " ++ n
  | .functionDef t n => "def " ++ t ++ " -> " ++ n
  | .delete ns => "del " ++ ", ".intercalate ns
  | .expr t os => t ++ " = <expr " ++ ", ".intercalate os ++ ">"

end Stmt

end AbstractFlow

import AbstractFlow.Describe.Basic
import AbstractFlow.Flow.Graph
import AbstractFlow.Program.Scope

/-!
# Descriptions of programs

Scopes with their statements, and control-flow graphs.
-/
namespace AbstractFlow

def Literal.typeName : Literal → String
  | .none => "none"
  | .int _ => "int"
  | .float _ => "float"
  | .str _ => "str"
  | .bool _ => "bool"

def Literal.describe (l : Literal) : Description :=
  .record (("t", .text l.typeName) :: ("s", .text l.text) :: match l with
    | .str v => [("v", .text v.text)]
    | _ => [])

def Operand.describe : Operand → Description
  | .variable n => .record [("name", n)]
  | .literal l => .record [("lit", l.describe)]

def Test.describe : Test → Description
  | .name n => .record [("name", n)]
  | .literal l => .record [("lit", l.describe)]
  | .compare l op r => .record [("left", l.describe), ("cmp", op), ("right", r.describe)]

def Stmt.details : Stmt → Fields
  | .const _ l => [("lit", l.describe)]
  | .build _ t elems keys => [("type", t.name), ("elems", .texts elems), ("keys", .texts keys)]
  | .call c =>
    [("receiver", c.receiver), ("args", .texts c.args),
      ("kwargs", .list (c.kwargs.map fun (n, v) => .texts [n, v]))]
  | .jump _ t _ => [("test", t.describe)]
  | _ => []

def Stmt.describe (s : Stmt) : Description :=
  .record (("s", .text s.text) :: ("defs", .texts s.defs) :: ("uses", .texts s.uses) ::
    ("dels", .texts s.dels) :: ("ctl", .bool s.isControlTransfer) :: s.details)

def Scope.describe (decorators : List String) (s : Scope) : Description :=
  .record
    [("name", s.name), ("kind", s.kind.name), ("parent", s.parent), ("params", .texts s.params),
      ("bases", .texts s.bases), ("decorators", .texts s.decorators), ("async", s.async),
      ("body", .list (s.body.map Stmt.describe)),
      ("has", .record (decorators.map fun d => (d, .bool (s.hasDecorator d))))]

def Graph.describe (g : Graph) : Description :=
  .record
    [("function", g.function), ("len", g.length), ("succs", .list (g.succs.map .ints)),
      ("preds", .list (g.preds.map .ints)),
      ("labels", .record (g.labels.map fun (n, i) => (n, .int i))),
      ("merge_points", .ints g.mergePoints)]

end AbstractFlow

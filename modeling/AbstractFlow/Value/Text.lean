import AbstractFlow.Value.Object

/-!
# Text of values

A value shows its objects between braces, and an object its kind, its name and what is known of
it. Attributes are shown only where they tell objects of one name apart.
-/
namespace AbstractFlow

def Constant.text : Constant → String
  | .number t s => t.name ++ s.text
  | .string s => "str" ++ s.text
  | .none => "None"

def Container.text (c : Container Value) : String :=
  c.type.name ++ "[" ++
    (if c.type = .dict then "|".intercalate c.keyTypes ++ ":" else "") ++
    "|".intercalate c.elemTypes ++ "](" ++ toString c.minSize ++ ".." ++
    (match c.maxSize with
      | some n => toString n
      | none => "inf") ++ ")"

def Function.text {V : Type} (f : Function V) : String :=
  let flags :=
    (if f.async then ["async"] else []) ++
    (if f.binding ≠ .plain then [f.binding.name] else []) ++
    (if f.getter then ["getter"] else []) ++
    (if f.setter then ["setter"] else [])
  " ".intercalate (flags ++ ["func"]) ++ " " ++ f.name ++ "(" ++ ", ".intercalate f.params ++ ")"

def Class.text {V : Type} (c : Class V) : String :=
  if c.bases.isEmpty then "class " ++ c.name
  else "class " ++ c.name ++ "(" ++ ", ".intercalate c.bases ++ ")"

def External.text {V : Type} (e : External V) : String :=
  let kind := match e.kind with
    | .function => "func"
    | .classObject => "class"
    | .instanceObject => "instance"
  "external " ++ kind ++ " " ++ e.module ++ "." ++ e.name

mutual

def Object.text : Object → String
  | .unknown [] => "unknown"
  | .unknown (e :: rest) => "unknown(" ++ ", ".intercalate (entryTexts (e :: rest)) ++ ")"
  | .constant c => c.text
  | .container c => c.text
  | .function f => f.text
  | .classObject c => c.text
  | .instanceObject ⟨name, site, as⟩ =>
    "instance " ++ name ++ (if site = "" then "" else "@" ++ site) ++
      (match as with
        | [] => ""
        | e :: rest => "(" ++ ", ".intercalate (entryTexts (e :: rest)) ++ ")")
  | .external e => e.text

def objectTexts : List Object → List String
  | [] => []
  | o :: os => o.text :: objectTexts os

def entryTexts : List (String × List Object) → List String
  | [] => []
  | (n, v) :: rest =>
    (n ++ "=\x7b" ++ " | ".intercalate (objectTexts v) ++ "\x7d") :: entryTexts rest

end

def Value.text (v : Value) : String := "\x7b" ++ " | ".intercalate (objectTexts v) ++ "\x7d"

def Attrs.text (as : Attrs) : String := "(" ++ ", ".intercalate (entryTexts as) ++ ")"

end AbstractFlow

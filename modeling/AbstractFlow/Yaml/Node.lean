import AbstractFlow.Yaml.Scan

/-!
# Documents as trees

The first document of a stream as a tree of scalars, sequences and mappings. An alias refers to
an anchored node by number, since a node may be referred to from inside itself.
-/
namespace AbstractFlow.Yaml

/-- Nodes know the line they start on, counted from one. A scalar is implicit if its tag is left
to be found from its text. -/
inductive Node where
  | scalar (line : Nat) (tag text : String) (implicit : Bool)
  | sequence (line : Nat) (items : List Node)
  | mapping (line : Nat) (entries : List (Node × Node))
  | alias (line occurrence target : Nat)
deriving Inhabited

/-- The line that a node starts on; an alias stands where it is written. -/
def Node.line : Node → Nat
  | .scalar line .. | .sequence line _ | .mapping line _ | .alias line .. => line

/-- A document with its anchored nodes, and a bound on how deep its content can be followed. -/
structure Document where
  root : Option Node
  anchored : List (Nat × Node)
  bound : Nat

structure Composer where
  tokens : List Token
  handles : List (String × String)
  names : List (String × Nat)
  anchored : List (Nat × Node)
  anchors : Nat
  aliases : Nat

abbrev Compose := StateT Composer Option

namespace Compose

def peek : Compose Token := do
  match (← get).tokens with
  | t :: _ => pure t
  | [] => failure

def advance : Compose Unit := modify fun s => { s with tokens := s.tokens.tail }

def empty (line : Nat) : Node := .scalar (line + 1) "" "" true

/-- Makes a name refer to a new anchor. -/
def declare (name : Option String) : Compose (Option Nat) := do
  match name with
  | none => pure none
  | some name =>
    let s ← get
    set { s with names := (name, s.anchors) :: s.names, anchors := s.anchors + 1 }
    pure (some s.anchors)

def bindAnchor (anchor : Option Nat) (n : Node) : Compose Node := do
  match anchor with
  | none => pure n
  | some a =>
    modify fun s => { s with anchored := (a, n) :: s.anchored }
    pure n

def aliasTo (line : Nat) (name : String) : Compose Node := do
  let s ← get
  match s.names.lookup name with
  | none => failure
  | some target =>
    set { s with aliases := s.aliases + 1 }
    pure (.alias (line + 1) s.aliases target)

def resolveTag (handle suffix : String) : Compose String := do
  if handle = "" then pure suffix
  else
    match (← get).handles.lookup handle with
    | some uri => if uri ++ suffix = "" then failure else pure (uri ++ suffix)
    | none => failure

/-- The properties of a node: its line, tag and anchor, in either order. -/
def properties : Compose (Nat × String × Option String) := do
  let t ← peek
  match t.kind with
  | .anchor name =>
    advance
    match (← peek).kind with
    | .tag h s => advance; pure (t.line, ← resolveTag h s, some name)
    | _ => pure (t.line, "", some name)
  | .tag h s =>
    advance
    match (← peek).kind with
    | .anchor name => advance; pure (t.line, ← resolveTag h s, some name)
    | _ => pure (t.line, ← resolveTag h s, none)
  | _ => pure (t.line, "", none)

/-- How a node is read; the flags allow blocks, and sequences no deeper than their key. -/
abbrev NodeReader := Bool → Bool → Compose Node

/-- A node, unless what follows shows that it is missing. -/
def nodeUnless (node : NodeReader) (block indentless : Bool) (line : Nat)
    (ends : TokenKind → Bool) : Compose Node := do
  if ends (← peek).kind then pure (empty line) else node block indentless

def blockSequence (node : NodeReader) : Nat → List Node → Compose (List Node)
  | 0, _ => failure
  | fuel + 1, items => do
    let t ← peek
    match t.kind with
    | .blockEntry =>
      advance
      let n ← nodeUnless node true false t.line fun k => k = .blockEntry || k = .blockEnd
      blockSequence node fuel (n :: items)
    | .blockEnd => advance; pure items.reverse
    | _ => failure

def indentlessSequence (node : NodeReader) : Nat → List Node → Compose (List Node)
  | 0, _ => failure
  | fuel + 1, items => do
    let t ← peek
    match t.kind with
    | .blockEntry =>
      advance
      let n ← nodeUnless node true false t.line fun k =>
        k = .blockEntry || k = .key || k = .value || k = .blockEnd
      indentlessSequence node fuel (n :: items)
    | _ => pure items.reverse

def blockMapping (node : NodeReader) :
    Nat → List (Node × Node) → Compose (List (Node × Node))
  | 0, _ => failure
  | fuel + 1, entries => do
    let ends (k : TokenKind) : Bool := k = .key || k = .value || k = .blockEnd
    let t ← peek
    match t.kind with
    | .key =>
      advance
      let k ← nodeUnless node true true t.line ends
      let t ← peek
      if t.kind = .value then
        advance
        let v ← nodeUnless node true true t.line ends
        blockMapping node fuel ((k, v) :: entries)
      else blockMapping node fuel ((k, empty t.line) :: entries)
    | .blockEnd => advance; pure entries.reverse
    | _ => failure

/-- The value behind a key in a flow collection that ends with `close`. -/
def flowValue (node : NodeReader) (close : TokenKind) : Compose Node := do
  let t ← peek
  if t.kind = .value then
    advance
    let t ← peek
    nodeUnless node false false t.line fun k => k = .flowEntry || k = close
  else pure (empty t.line)

/-- Passes the comma before all items but the first. -/
def separator (first : Bool) : Compose Unit := do
  if !first then
    if (← peek).kind = .flowEntry then advance else failure

def flowSequence (node : NodeReader) : Nat → List Node → Compose (List Node)
  | 0, _ => failure
  | fuel + 1, items => do
    if (← peek).kind = .flowSequenceEnd then advance; pure items.reverse
    else
      separator items.isEmpty
      let t ← peek
      -- A key without a mapping around it begins a mapping of one entry.
      if t.kind = .key then
        advance
        let k ← peek
        let key ← (match k.kind with
          | .value | .flowEntry | .flowSequenceEnd => do advance; pure (empty k.line)
          | _ => node false false)
        let value ← flowValue node .flowSequenceEnd
        flowSequence node fuel (.mapping (t.line + 1) [(key, value)] :: items)
      else if t.kind = .flowSequenceEnd then advance; pure items.reverse
      else
        let n ← node false false
        flowSequence node fuel (n :: items)

def flowMapping (node : NodeReader) :
    Nat → List (Node × Node) → Compose (List (Node × Node))
  | 0, _ => failure
  | fuel + 1, entries => do
    if (← peek).kind = .flowMappingEnd then advance; pure entries.reverse
    else
      separator entries.isEmpty
      let t ← peek
      if t.kind = .key then
        advance
        let t ← peek
        let key ← nodeUnless node false false t.line fun k =>
          k = .value || k = .flowEntry || k = .flowMappingEnd
        let value ← flowValue node .flowMappingEnd
        flowMapping node fuel ((key, value) :: entries)
      else if t.kind = .flowMappingEnd then advance; pure entries.reverse
      else
        let key ← node false false
        let t ← peek
        flowMapping node fuel ((key, empty t.line) :: entries)

def content (node : NodeReader) (bound : Nat) (block indentless : Bool) (line : Nat)
    (tag : String) (anchored : Bool) : Compose Node := do
  let t ← peek
  let line := line + 1
  match t.kind with
  | .scalar text plain =>
    advance
    pure (.scalar line tag text ((tag = "" && plain) || tag = "!"))
  | .flowSequenceStart => advance; pure (.sequence line (← flowSequence node bound []))
  | .flowMappingStart => advance; pure (.mapping line (← flowMapping node bound []))
  | .blockSequenceStart =>
    if block then advance; pure (.sequence line (← blockSequence node bound []))
    else missing line
  | .blockMappingStart =>
    if block then advance; pure (.mapping line (← blockMapping node bound []))
    else missing line
  | .blockEntry =>
    if indentless then pure (.sequence line (← indentlessSequence node bound []))
    else missing line
  | _ => missing line
where
  missing (line : Nat) : Compose Node :=
    if anchored || tag ≠ "" then pure (.scalar line tag "" (tag = "")) else failure

/-- A node nested at most `fuel` deep. -/
def node (bound : Nat) : Nat → NodeReader
  | 0, _, _ => failure
  | fuel + 1, block, indentless => do
    let t ← peek
    match t.kind with
    | .alias name => advance; aliasTo t.line name
    | _ =>
      let (line, tag, name) ← properties
      let anchor ← declare name
      let n ← content (node bound fuel) bound block indentless line tag name.isSome
      bindAnchor anchor n

def standardHandles : List (String × String) := [("!", "!"), ("!!", "tag:yaml.org,2002:")]

/-- The directives before a document; only version 1.1 is known. -/
def directives : Nat → Bool → Compose Unit
  | 0, _ => failure
  | fuel + 1, versioned => do
    match (← peek).kind with
    | .versionDirective major minor =>
      if versioned || major ≠ 1 || minor ≠ 1 then failure
      else advance; directives fuel true
    | .tagDirective handle uri =>
      if ((← get).handles.lookup handle).isSome then failure
      else
        advance
        modify fun s => { s with handles := (handle, uri) :: s.handles }
        directives fuel versioned
    | _ => pure ()

def document (bound : Nat) : Compose (Option Node) := do
  let t ← peek
  match t.kind with
  | .streamEnd => pure none
  | .versionDirective .. | .tagDirective .. | .documentStart =>
    directives bound false
    if (← peek).kind = .documentStart then
      advance
      -- Handles that were declared hide the standard ones.
      modify fun s => { s with handles := s.handles ++ standardHandles }
      let t ← peek
      let root ← (match t.kind with
        | .versionDirective .. | .tagDirective .. | .documentStart | .documentEnd | .streamEnd =>
          pure (empty t.line)
        | _ => node bound bound true false)
      let _ ← peek
      pure (some root)
    else failure
  | _ =>
    modify fun s => { s with handles := s.handles ++ standardHandles }
    let root ← node bound bound true false
    let _ ← peek
    pure (some root)

end Compose

/-- The first document of a text, or nothing if it is malformed. -/
def parse? (text : String) : Option Document :=
  let tokens := scan text
  let bound := tokens.length + 1
  (Compose.document bound |>.run ⟨tokens, [], [], [], 0, 0⟩).map fun (root, s) =>
    ⟨root, s.anchored, (s.aliases + 1) * (bound + 1)⟩

end AbstractFlow.Yaml

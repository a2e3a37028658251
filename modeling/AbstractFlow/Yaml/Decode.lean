import AbstractFlow.Number.Word
import AbstractFlow.Yaml.Node
import AbstractFlow.Yaml.Scalar

/-!
# Reading data of a known shape

A reader takes a node to a value of the shape it expects. A node of another shape is reported and
reading goes on, so that all such faults of a document come to light together; nothing is read
from a document that cannot be understood at all.
-/
namespace AbstractFlow.Yaml

/-- Where reading stands: the aliases being followed, and whether mappings of no known shape are
kept as pairs. -/
structure Surroundings where
  anchored : List (Nat × Node)
  bound : Nat
  followed : List Nat
  keepPairs : Bool

/-- What has been reported, and how many nodes have been visited, in all and through aliases. The
document counts as a node. -/
structure Progress where
  faults : List String
  visited : Nat
  aliased : Nat

abbrev Read := ReaderT Surroundings (StateT Progress Option)

namespace Read

/-- The document cannot be understood. -/
def reject {α : Type} : Read α := fun _ _ => none

def report (fault : String) : Read Unit := modify fun p => { p with faults := p.faults ++ [fault] }

/-- Whether too large a part of what is read comes from following aliases. -/
def isExcessive (aliased visited : Nat) : Bool :=
  let low := 400000
  let range := 3600000
  let allowed :=
    if visited ≤ low then 99 * range
    else if low + range ≤ visited then 10 * range
    else 99 * range - 89 * (visited - low)
  100 < aliased && 1000 < visited && visited * allowed < aliased * 100 * range

def count : Read Unit := do
  let followed := (← read).followed
  let p ← get
  let aliased := if followed.isEmpty then p.aliased else p.aliased + 1
  let visited := p.visited + 1
  if isExcessive aliased visited then reject
  else set { p with aliased, visited }

/-- Goes to a node, following an alias that is not being followed already. -/
def visit {α : Type} (n : Node) (k : Node → Read α) : Read α := do
  count
  match n with
  | .alias _ occurrence target =>
    let env ← read
    match env.followed.contains occurrence, env.anchored.lookup target with
    | false, some n =>
      withReader (fun env => { env with followed := occurrence :: env.followed }) do
        count
        k n
    | _, _ => reject
  | n => k n

/-- The first bytes of a long text, with a mark for what is left out. -/
def excerpt (s : String) : String :=
  let bytes := (ByteString.ofString s).bytes
  if bytes.length ≤ 10 then s else (ByteString.mk (bytes.take 7)).text ++ "..."

def mismatch (line : Nat) (tag text type : String) : Read Unit :=
  let shown :=
    if tag = Tag.sequence || tag = Tag.mapping then text else " `" ++ excerpt text ++ "`"
  report ("line " ++ toString line ++ ": cannot unmarshal " ++ Tag.short tag ++ shown ++ " into " ++
    type)

def meaning (tag text : String) (implicit : Bool) : Read (String × Datum) :=
  if tag = "" && !implicit then pure (Tag.str, .text (.ofString text))
  else
    match resolve tag text with
    | none => reject
    | some (found, d) =>
      if found = Tag.binary then
        match binary? text with
        | some s => pure (found, .text s)
        | none => reject
      else pure (found, d)

/-- A reader of scalars: `null` is what a null gives, and `f` reads the others. -/
def scalarOf {α : Type} (type : String) (null : α)
    (f : (found text : String) → Datum → Option α) (n : Node) : Read (Option α) :=
  visit n fun
    | .scalar line tag text implicit => do
      let (found, d) ← meaning tag text implicit
      match d with
      | .null => pure (some null)
      | d =>
        match f found text d with
        | some a => pure (some a)
        | none =>
          mismatch line (if tag = "" then found else tag) text type
          pure none
    | .sequence line _ => do mismatch line Tag.sequence "" type; pure none
    | .mapping line _ => do mismatch line Tag.mapping "" type; pure none
    | .alias .. => reject

/-- Any scalar as a string: numbers and the like keep their source text. -/
def bytesAs (type : String) : Node → Read (Option ByteString) :=
  scalarOf type (.ofString "") fun found text d =>
    match d with
    | .text s => some (if found = Tag.binary then s else .ofString text)
    | _ => some (.ofString text)

def byteString : Node → Read (Option ByteString) := bytesAs "string"

/-- A string that serves as a name. -/
def string (n : Node) : Read (Option String) := do pure ((← byteString n).map ByteString.text)

def bool : Node → Read (Option Bool) :=
  scalarOf "bool" false fun _ _ d =>
    match d with
    | .bool b => some b
    | _ => none

/-- The whole part of a float; what is below the range of 64 bits goes to its end. -/
def truncated (x : Number) : Option Int :=
  if x.isNaN || !(x ≤ Number.ofNat Word.half) then none
  else if x.isInfinite then some (-(Word.half : Int))
  else
    let n : Int := x.wholePart false
    let n := if x.negative then -n else n
    some (if Word.fits n then n else -(Word.half : Int))

def int : Node → Read (Option Int) :=
  scalarOf "int" 0 fun _ _ d =>
    match d with
    | .int n => some n
    | .float x => truncated x
    | _ => none

def items {α : Type} (item : Node → Read (Option α)) (ns : List Node) : Read (List α) := do
  let mut out : List α := []
  for n in ns do
    match ← item n with
    | some a => out := out ++ [a]
    | none => pure ()
  pure out

def listOf {α : Type} (type : String) (item : Node → Read (Option α)) (n : Node) :
    Read (Option (List α)) :=
  visit n fun
    | .scalar line tag text implicit => do
      let (found, d) ← meaning tag text implicit
      match d with
      | .null => pure (some [])
      | _ =>
        mismatch line (if tag = "" then found else tag) text type
        pure none
    | .sequence _ ns => do pure (some (← items item ns))
    | .mapping line _ => do mismatch line Tag.mapping "" type; pure none
    | .alias .. => reject

def strings : Node → Read (Option (List String)) := listOf "[]string" string

/-- Whether a key stands for entries taken over from elsewhere. -/
def isMerge : Node → Bool
  | .scalar _ tag text implicit => text = "<<" && (implicit || tag = Tag.merge)
  | _ => false

private def isMapping (anchored : List (Nat × Node)) : Node → Bool
  | .mapping .. => true
  | .alias _ _ target => match anchored.lookup target with
    | some (.mapping ..) => true
    | _ => false
  | _ => false

/-- The mappings that a merge key takes over, the one that matters most last. -/
def merged (n : Node) : Read (List Node) := do
  let anchored := (← read).anchored
  match n with
  | .sequence _ ns => if ns.all (isMapping anchored) then pure ns.reverse else reject
  | n => if isMapping anchored n then pure [n] else reject

mutual

/-- A node of any shape, nested at most as deep as the fuel allows. -/
def datum : Nat → Node → Read (Option Datum)
  | 0, _ => reject
  | fuel + 1, n => visit n fun
    | .scalar _ tag text implicit => do
      let (_, d) ← meaning tag text implicit
      pure (some d)
    | .sequence _ ns => do pure (some (.list (← items (datum fuel) ns)))
    | .mapping _ entries => do
      if (← read).keepPairs then pure (some (.pairs (← pairEntries fuel entries)))
      else pure (some (.map (← mapEntries fuel entries [])))
    | .alias .. => reject

/-- The entries of a mapping looked up by key; a key may be given only once. -/
def mapEntries : Nat → List (Node × Node) → List (Datum × Datum) → Read (List (Datum × Datum))
  | 0, _, _ => reject
  | fuel + 1, entries, acc => do
    let mut acc := acc
    for (k, v) in entries do
      if isMerge k then
        for n in ← merged v do
          acc ← visit n fun
            | .mapping _ entries => mapEntries fuel entries acc
            | _ => reject
      else
        match ← datum fuel k with
        | none => pure ()
        | some key =>
          match key with
          | .list _ | .map _ | .pairs _ => reject
          | _ => pure ()
          match ← datum fuel v with
          | none => pure ()
          | some value =>
            -- The entry that was read first stays, also one that a merge key took over.
            if acc.any fun e => e.1.sameKey key then
              report ("line " ++ toString v.line ++ ": key " ++
                key.showKey ++ " already set in map")
            else acc := acc ++ [(key, value)]
    pure acc

/-- The entries of a mapping in their order. What a merge key takes over is read and dropped. -/
def pairEntries : Nat → List (Node × Node) → Read (List (Datum × Datum))
  | 0, _ => reject
  | fuel + 1, entries => withReader (fun env => { env with keepPairs := true }) do
    let mut out : List (Datum × Datum) := []
    for (k, v) in entries do
      if isMerge k then
        for n in ← merged v do
          let _ ← visit n fun
            | .mapping _ entries => pairEntries fuel entries
            | _ => reject
      else
        match ← datum fuel k with
        | none => pure ()
        | some key =>
          match ← datum fuel v with
          | none => pure ()
          | some value => out := out ++ [(key, value)]
    pure out

end

def anything (n : Node) : Read (Option Datum) := do datum (← read).bound n

/-- How the fields of a record are read: given a name, how its value changes the record. -/
abbrev Fields (σ : Type) := String → Option (Node → σ → Read σ)

/-- Keeps the field as it is if its value could not be read. -/
def field {σ α : Type} (reader : Node → Read (Option α)) (put : σ → α → σ) (n : Node) (s : σ) :
    Read σ := do
  match ← reader n with
  | some a => pure (put s a)
  | none => pure s

/-- Reads the entries of a mapping into a record. Unknown fields are reported, and so is a field
that the same mapping gives twice. -/
def recordEntries {σ : Type} (type : String) (fields : Fields σ) :
    Nat → List (Node × Node) → σ → Read σ
  | 0, _, _ => reject
  | fuel + 1, entries, s => do
    let mut s := s
    -- Only what this mapping gives itself counts as done, so that it may replace what a merge key
    -- took over.
    let mut done : List String := []
    for (k, v) in entries do
      if isMerge k then
        for n in ← merged v do
          s ← visit n fun
            | .mapping _ entries => recordEntries type fields fuel entries s
            | _ => reject
      else
        match ← string k with
        | none => pure ()
        | some name =>
          let line := "line " ++ toString k.line ++ ": field " ++ name
          match fields name with
          | none => report (line ++ " not found in type " ++ type)
          | some set =>
            if name ∈ done then report (line ++ " already set in type " ++ type)
            else
              done := name :: done
              s ← set v s
    pure s

/-- Reads a mapping into a record that starts as `init`; a null gives the record `null`. -/
def record {σ : Type} (type : String) (fields : Fields σ) (null init : σ) (n : Node) :
    Read (Option σ) :=
  visit n fun
    | .scalar line tag text implicit => do
      let (found, d) ← meaning tag text implicit
      match d with
      | .null => pure (some null)
      | _ =>
        mismatch line (if tag = "" then found else tag) text type
        pure none
    | .sequence line _ => do mismatch line Tag.sequence "" type; pure none
    | .mapping _ entries => do
      pure (some (← recordEntries type fields (← read).bound entries init))
    | .alias .. => reject

/-- A record that may be absent. Plain nulls leave it out; a record given before is completed. -/
def optionalRecord {σ : Type} (type : String) (fields : Fields σ) (null : σ) (n : Node)
    (old : Option σ) : Read (Option σ) := do
  let absent (n : Node) : Bool := match n with
    | .scalar _ tag text implicit =>
      tag = Tag.null || (tag = "" && (text = "null" || text = "~" || (text = "" && implicit)))
    | _ => false
  let target ← (match n with
    | .alias _ _ t => do pure ((← read).anchored.lookup t)
    | n => pure (some n))
  if target.any absent then
    match ← scalarOf ("*" ++ type) () (fun _ _ _ => none) n with
    | some _ => pure none
    | none => pure old
  else
    match ← record type fields null (old.getD null) n with
    | some s => pure (some s)
    | none => pure old

/-- Pairs in their order, from a mapping or from a sequence of keys and values. -/
def pairs (n : Node) : Read (Option (List (Datum × Datum))) := do
  let bound := (← read).bound
  let itemFields : Fields (Datum × Datum) := fun
    | "key" => some (field anything fun s k => (k, s.2))
    | "value" => some (field anything fun s v => (s.1, v))
    | _ => none
  visit n fun
    | .scalar line tag text implicit => do
      let (found, d) ← meaning tag text implicit
      match d with
      | .null => pure (some [])
      | _ =>
        mismatch line (if tag = "" then found else tag) text "yaml.MapSlice"
        pure none
    | .sequence _ ns => do
      let blank : Datum × Datum := (.null, .null)
      pure (some (← items (record "yaml.MapItem" itemFields blank blank) ns))
    | .mapping _ entries => do pure (some (← pairEntries bound entries))
    | .alias .. => reject

end Read

inductive ReadFault where
  | malformed
  | mismatched (faults : List String)

/-- What is wrong with a document, after the name of what was to be read from it. -/
def ReadFault.message (what : String) : ReadFault → String
  | .malformed => "error decoding " ++ what ++ ": yaml: malformed"
  | .mismatched faults =>
    "error decoding " ++ what ++ ": yaml: unmarshal errors:\n  " ++ "\n  ".intercalate faults

/-- Reads the first document of a text; an absent one gives the default. -/
def readDocument {α : Type} (reader : Node → Read (Option α)) (default : α) (text : String) :
    Except ReadFault α :=
  match parse? text with
  | none => .error .malformed
  | some doc =>
    match doc.root with
    | none => .ok default
    | some root =>
      match (reader root).run ⟨doc.anchored, doc.bound, [], false⟩ |>.run ⟨[], 1, 0⟩ with
      | none => .error .malformed
      | some (a, p) => if p.faults.isEmpty then .ok (a.getD default) else .error (.mismatched p.faults)

end AbstractFlow.Yaml

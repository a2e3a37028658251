import AbstractFlow.Text.ByteString
import AbstractFlow.Yaml.Token

/-!
# Scalars, tags and directives as written

Reads the tokens that span several characters: plain, quoted and block scalars with their folded
lines, anchors, tags and directives. Each reader gives what it read and the cursor behind it, or
nothing if the text is malformed.
-/
namespace AbstractFlow.Yaml

/-- Text being put together from folded lines; the lists are in reverse. -/
structure Folding where
  text : List Char := []
  spaces : List Char := []
  firstBreak : List Char := []
  moreBreaks : List Char := []
  broken : Bool := false

namespace Folding

/-- A single line break becomes a space, of several the first is dropped; a special line break
stays as it is. -/
def joinBreaks (f : Folding) : List Char :=
  if f.firstBreak = ['\n'] then (if f.moreBreaks.isEmpty then [' '] else f.moreBreaks)
  else f.moreBreaks ++ f.firstBreak

/-- Ends the gap before further text. -/
def join (f : Folding) : Folding :=
  { text := (if f.broken then f.joinBreaks else f.spaces) ++ f.text }

def push (f : Folding) (c : Char) : Folding := { f with text := c :: f.text }

def result (f : Folding) : String := String.ofList f.text.reverse

end Folding

/-- Passes spaces and line breaks between words. In a block, a tab may not stand where the
indentation is still missing. -/
def readGap (tabLimit : Nat) : Nat → Cursor → Folding → Option (Cursor × Folding)
  | 0, c, f => some (c, f)
  | fuel + 1, c, f =>
    match c.rest with
    | [] => some (c, f)
    | ch :: _ =>
      if isSpace ch then
        if f.broken && c.mark.column < tabLimit && ch = '\t' then none
        else if f.broken then readGap tabLimit fuel c.skip f
        else readGap tabLimit fuel c.skip { f with spaces := ch :: f.spaces }
      else if isBreak ch then
        let (c, b) := c.readLine
        if f.broken then readGap tabLimit fuel c { f with moreBreaks := b ++ f.moreBreaks }
        else readGap tabLimit fuel c { f with spaces := [], firstBreak := b, broken := true }
      else some (c, f)

def isFlowIndicator (c : Char) : Bool :=
  c = ',' || c = '?' || c = '[' || c = ']' || c = '\x7b' || c = '\x7d'

/-- The characters of a plain scalar up to a gap or an indicator that ends it. -/
def plainWord (inFlow : Bool) : List Char → List Char
  | [] => []
  | ch :: rest =>
    if isSpace ch || isBreak ch then []
    else if ch = ':' && isGap rest then []
    else if inFlow && isFlowIndicator ch then []
    else ch :: plainWord inFlow rest

/-- A plain scalar; `indent` is the least column its further lines may start in, and `bound` is at
least the number of characters left. -/
def readPlain (inFlow : Bool) (indent bound : Nat) :
    Nat → Cursor → Folding → Option (Cursor × Folding)
  | 0, c, f => some (c, f)
  | fuel + 1, c, f =>
    if c.atDocumentMarker || c.startsWith ['#'] then some (c, f)
    else
      let word := plainWord inFlow c.rest
      let c := Cursor.skipMany word.length c
      let f := if word.isEmpty then f else { f.join with text := word.reverse ++ f.join.text }
      match c.rest with
      | ch :: _ =>
        if isSpace ch || isBreak ch then
          match readGap indent bound c f with
          | none => none
          | some (c, f) =>
            -- A line that starts further left belongs to what is around the scalar.
            if !inFlow && c.mark.column < indent then some (c, f)
            else readPlain inFlow indent bound fuel c f
        else some (c, f)
      | [] => some (c, f)

def hexValue? (c : Char) : Option Nat :=
  if c.isDigit then some (c.toNat - '0'.toNat)
  else if 'a' ≤ c ∧ c ≤ 'f' then some (c.toNat - 'a'.toNat + 10)
  else if 'A' ≤ c ∧ c ≤ 'F' then some (c.toNat - 'A'.toNat + 10)
  else none

def hexNumber? (n : Nat) (cs : List Char) : Option Nat :=
  if cs.length < n then none
  else (cs.take n).foldlM (fun acc c => (hexValue? c).map (acc * 16 + ·)) 0

def shortEscape? : Char → Option Char
  | '0' => some '\x00'
  | 'a' => some '\x07'
  | 'b' => some '\x08'
  | 't' => some '\t'
  | '\t' => some '\t'
  | 'n' => some '\n'
  | 'v' => some '\x0b'
  | 'f' => some '\x0c'
  | 'r' => some '\r'
  | 'e' => some '\x1b'
  | ' ' => some ' '
  | '"' => some '"'
  | '\'' => some '\''
  | '\\' => some '\\'
  | 'N' => some (Char.ofNat 0x85)
  | '_' => some (Char.ofNat 0xa0)
  | 'L' => some (Char.ofNat 0x2028)
  | 'P' => some (Char.ofNat 0x2029)
  | _ => none

def escapeWidth? : Char → Option Nat
  | 'x' => some 2
  | 'u' => some 4
  | 'U' => some 8
  | _ => none

/-- The escape after a backslash: its character and its length without the backslash. -/
def readEscape (cs : List Char) : Option (Char × Nat) :=
  match cs with
  | [] => none
  | e :: rest =>
    match shortEscape? e, escapeWidth? e with
    | some c, _ => some (c, 1)
    | none, some n =>
      (hexNumber? n rest).bind fun v =>
        -- Surrogates are no characters, and there are none beyond the last code point.
        if (0xD800 ≤ v ∧ v ≤ 0xDFFF) ∨ 0x10FFFF < v then none else some (Char.ofNat v, n + 1)
    | none, none => none

/-- Text of a quoted scalar up to a gap, to the closing quotation mark or past an escaped line
break, which begins a gap of its own. -/
def readQuotedWord (single : Bool) : Nat → Cursor → Folding → Option (Cursor × Folding)
  | 0, c, f => some (c, f)
  | fuel + 1, c, f =>
    match c.rest with
    | [] => some (c, f)
    | ch :: rest =>
      if isSpace ch || isBreak ch then some (c, f)
      else if single then
        if ch = '\'' then
          -- Between single quotation marks, two of them stand for one.
          if rest.head? = some '\'' then
            readQuotedWord single fuel c.skip.skip (f.push '\'')
          else some (c, f)
        else readQuotedWord single fuel c.skip (f.push ch)
      else if ch = '"' then some (c, f)
      else if ch = '\\' then
        if !rest.isEmpty && isLineEnd rest then
          some (c.skip.skipLine, { f with broken := true })
        else
          match readEscape rest with
          | none => none
          | some (e, width) => readQuotedWord single fuel (Cursor.skipMany (width + 1) c) (f.push e)
      else readQuotedWord single fuel c.skip (f.push ch)

def readQuoted (single : Bool) (bound : Nat) :
    Nat → Cursor → Folding → Option (Cursor × String)
  | 0, _, _ => none
  | fuel + 1, c, f =>
    if c.atDocumentMarker || c.rest.isEmpty then none
    else
      match readQuotedWord single bound c f with
      | none => none
      | some (c, f) =>
        match c.rest with
        | [] => none
        | ch :: _ =>
          if ch = (if single then '\'' else '"') then some (c.skip, f.result)
          else
            match readGap 0 bound c f with
            | none => none
            | some (c, f) => readQuoted single bound fuel c f.join

/-- What follows the mark of a block scalar: whether the last line breaks are kept (`some true`),
dropped (`some false`) or reduced to one, and the indentation if given. -/
structure BlockHeader where
  keep : Option Bool := none
  indent : Nat := 0

private def chompOf : Char → Option Bool
  | '+' => some true
  | '-' => some false
  | _ => none

def readBlockHeader (c : Cursor) : Option (Cursor × BlockHeader) :=
  let digit (ch : Char) : Bool := ch.isDigit
  match c.rest with
  | a :: b :: _ =>
    match chompOf a, chompOf b with
    | some keep, _ =>
      if b = '0' then none
      else if digit b then some (c.skip.skip, ⟨some keep, b.toNat - '0'.toNat⟩)
      else some (c.skip, ⟨some keep, 0⟩)
    | none, keep =>
      if a = '0' then none
      else if digit a then
        match keep with
        | some keep => some (c.skip.skip, ⟨some keep, a.toNat - '0'.toNat⟩)
        | none => some (c.skip, ⟨none, a.toNat - '0'.toNat⟩)
      else some (c, {})
  | [a] =>
    match chompOf a with
    | some keep => some (c.skip, ⟨some keep, 0⟩)
    | none =>
      if a = '0' then none
      else if digit a then some (c.skip, ⟨none, a.toNat - '0'.toNat⟩)
      else some (c, {})
  | [] => some (c, {})

/-- Passes empty lines and the indentation of the next line. An indentation of zero is not known
yet; then the deepest column reached is given as well. -/
def readIndentation (indent : Nat) :
    Nat → Cursor → List Char → Nat → Option (Cursor × List Char × Nat)
  | 0, c, breaks, deepest => some (c, breaks, deepest)
  | fuel + 1, c, breaks, deepest =>
    let line := if indent = 0 then c.rest else c.rest.take (indent - c.mark.column)
    let c := Cursor.skipMany (line.takeWhile (· = ' ')).length c
    let deepest := max deepest c.mark.column
    if (indent = 0 || c.mark.column < indent) && c.startsWith ['\t'] then none
    else
      match c.rest with
      | ch :: _ =>
        if isBreak ch then
          let (c, b) := c.readLine
          readIndentation indent fuel c (b ++ breaks) deepest
        else some (c, breaks, deepest)
      | [] => some (c, breaks, deepest)

/-- The lines of a block scalar; text and further line breaks are in reverse. -/
def readBlockLines (literal : Bool) (indent bound : Nat) :
    Nat → Cursor → (text firstBreak moreBreaks : List Char) → (indented : Bool) →
      Option (Cursor × List Char × List Char × List Char)
  | 0, c, text, first, more, _ => some (c, text, first, more)
  | fuel + 1, c, text, first, more, indented =>
    if c.mark.column = indent && !c.rest.isEmpty then
      let startsBlank := match c.rest with
        | ch :: _ => isSpace ch
        | [] => false
      let gap :=
        if !literal && !indented && !startsBlank && first = ['\n'] then
          (if more.isEmpty then [' '] else [])
        else first
      let (line, c) := c.takeWhile fun ch => !isBreak ch
      let text := line.reverse ++ more ++ gap ++ text
      let (c, first) := c.readLine
      match readIndentation indent bound c [] 0 with
      | none => none
      | some (c, more, _) => readBlockLines literal indent bound fuel c text first more startsBlank
    else some (c, text, first, more)

/-- A block scalar behind its mark; `parent` is the indentation around it. -/
def readBlock (literal : Bool) (parent : Int) (bound : Nat) (c : Cursor) :
    Option (Cursor × String) := do
  let (c, header) ← readBlockHeader c
  let c := (c.dropWhile isSpace).skipComment
  if !isLineEnd c.rest then none
  else
    let c := c.skipLine
    let given := if header.indent = 0 then 0 else (max parent 0).toNat + header.indent
    let (c, more, deepest) ← readIndentation given bound c [] 0
    let indent := if given = 0 then max (max deepest (parent + 1).toNat) 1 else given
    let (c, text, first, more) ← readBlockLines literal indent bound bound c [] [] more false
    let text := if header.keep = some false then text else first ++ text
    let text := if header.keep = some true then more ++ text else text
    some (c, String.ofList text.reverse)

def readAnchor (c : Cursor) : Option (Cursor × String) :=
  let (name, c) := c.takeWhile isWordChar
  let closed := isGap c.rest || (match c.rest with
    | ch :: _ => "?:,]\x7d%@`".toList.contains ch
    | [] => true)
  if name.isEmpty || !closed then none else some (c, String.ofList name)

private def isUriChar (c : Char) : Bool := isWordChar c || ";/?:@&=+$,.!~*'()[]".toList.contains c

/-- The number of continuation bytes that a leading byte of UTF-8 announces. -/
private def continuationCount (b : Nat) : Option Nat :=
  if b < 0x80 then some 0
  else if 0xC0 ≤ b ∧ b < 0xE0 then some 1
  else if 0xE0 ≤ b ∧ b < 0xF0 then some 2
  else if 0xF0 ≤ b ∧ b < 0xF8 then some 3
  else none

private def readPercentByte (c : Cursor) : Option (Cursor × Nat) :=
  match c.rest with
  | '%' :: a :: b :: _ =>
    (hexNumber? 2 [a, b]).map fun v => (Cursor.skipMany 3 c, v)
  | _ => none

private def readContinuation : Nat → Cursor → List UInt8 → Option (Cursor × List UInt8)
  | 0, c, bs => some (c, bs)
  | n + 1, c, bs => do
    let (c, b) ← readPercentByte c
    if 0x80 ≤ b ∧ b < 0xC0 then readContinuation n c (bs ++ [b.toUInt8]) else none

/-- Characters of a tag; escaped ones are given by the bytes of their encoding. -/
private def readUri : Nat → Cursor → List Char → Option (Cursor × List Char)
  | 0, c, text => some (c, text)
  | fuel + 1, c, text =>
    match c.rest with
    | '%' :: _ => do
      let (c, lead) ← readPercentByte c
      let count ← continuationCount lead
      let (c, bytes) ← readContinuation count c [lead.toUInt8]
      readUri fuel c (text ++ (ByteString.mk bytes).text.toList)
    | ch :: _ => if isUriChar ch then readUri fuel c.skip (text ++ [ch]) else some (c, text)
    | [] => some (c, text)

/-- A tag handle: the mark, word characters and possibly a second mark. -/
private def readHandle (c : Cursor) : Option (Cursor × List Char) :=
  match c.rest with
  | '!' :: _ =>
    let (word, c) := c.skip.takeWhile isWordChar
    match c.rest with
    | '!' :: _ => some (c.skip, '!' :: word ++ ['!'])
    | _ => some (c, '!' :: word)
  | _ => none

/-- A tag as handle and suffix; the lone mark is a suffix without a handle. -/
def readTag (c : Cursor) : Option (Cursor × String × String) := do
  let (c, handle, suffix) ← (match c.rest with
    | '!' :: '<' :: _ => do
      let (c, uri) ← readUri c.rest.length c.skip.skip []
      if uri.isEmpty || !c.startsWith ['>'] then none else some (c.skip, "", String.ofList uri)
    | _ => do
      let (c, handle) ← readHandle c
      if 1 < handle.length ∧ handle.getLast? = some '!' then
        let (c, uri) ← readUri c.rest.length c []
        if uri.isEmpty then none else some (c, String.ofList handle, String.ofList uri)
      else
        let (c, uri) ← readUri c.rest.length c (handle.drop 1)
        if uri.isEmpty then some (c, "", "!") else some (c, "!", String.ofList uri))
  if isGap c.rest then some (c, handle, suffix) else none

private def readNat (c : Cursor) : Option (Cursor × Nat) :=
  let (ds, c) := c.takeWhile Char.isDigit
  if ds.isEmpty || 2 < ds.length then none
  else some (c, ds.foldl (fun n d => n * 10 + (d.toNat - '0'.toNat)) 0)

private def readVersion (c : Cursor) : Option (Cursor × TokenKind) := do
  let (c, major) ← readNat (c.dropWhile isSpace)
  if !c.startsWith ['.'] then none
  else
    let (c, minor) ← readNat c.skip
    some (c, .versionDirective major minor)

private def readTagDirective (c : Cursor) : Option (Cursor × TokenKind) := do
  let (c, handle) ← readHandle (c.dropWhile isSpace)
  if handle ≠ ['!'] ∧ (handle.length < 2 ∨ handle.getLast? ≠ some '!') then none
  else
    match c.rest with
    | ch :: _ =>
      if !isSpace ch then none
      else
        let c := c.dropWhile isSpace
        let (c, uri) ← readUri c.rest.length c []
        if uri.isEmpty || !isGap c.rest then none
        else some (c, .tagDirective (String.ofList handle) (String.ofList uri))
    | [] => none

/-- A directive behind its mark, up to and including the end of its line. -/
def readDirective (c : Cursor) : Option (Cursor × TokenKind) := do
  let (name, c) := c.takeWhile isWordChar
  if name.isEmpty || !isGap c.rest then none
  else
    let (c, kind) ← (match String.ofList name with
      | "YAML" => readVersion c
      | "TAG" => readTagDirective c
      | _ => none)
    let c := (c.dropWhile isSpace).skipComment
    if isLineEnd c.rest then some (c.skipLine, kind) else none

end AbstractFlow.Yaml

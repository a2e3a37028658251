import AbstractFlow.Yaml.Lexeme
import AbstractFlow.Yaml.Readable

/-!
# From characters to tokens

Indentation opens and closes blocks, and a key is recognised only at the colon behind it: the
place where a key may have started is remembered, and its tokens are inserted there afterwards. If
the text is malformed, the tokens end before the first one that could not be settled.
-/
namespace AbstractFlow.Yaml

structure KeyStart where
  required : Bool
  mark : Mark
  /-- Whether the tokens from here on are held back until the colon is found. -/
  awaited : Bool

structure Level where
  /-- The number of the token that began the level, or the last possible key on it. -/
  origin : Nat
  key : Option KeyStart

structure Scanner where
  /-- More than the number of characters in the text. -/
  bound : Nat
  /-- Whether the text goes on with something that cannot be read. -/
  cut : Bool
  cursor : Cursor
  /-- The tokens so far, the last one first, and their number. -/
  tokens : List Token
  count : Nat
  indent : Int
  indents : List Int
  /-- The level of the cursor, and the levels around the innermost one. -/
  level : Level
  outer : List Level
  keyAllowed : Bool
  done : Bool

namespace Scanner

def start (text : List Char) (cut : Bool) : Scanner :=
  ⟨text.length + 1, cut, ⟨text, ⟨0, 0, 0⟩⟩, [], 0, -1, [], ⟨0, none⟩, [], true, false⟩

/-- Neither flow collections nor blocks may be nested deeper. -/
def maxDepth : Nat := 10000

def inFlow (s : Scanner) : Bool := !s.outer.isEmpty

/-- Whether fewer than `n` characters are left of a text that goes on unreadably. -/
def lacks (s : Scanner) (n : Nat) : Bool := s.cut && (s.cursor.rest.drop (n - 1)).isEmpty

def mark (s : Scanner) : Mark := s.cursor.mark

/-- Adds a token as number `i`, before the tokens from there on. -/
def insert (s : Scanner) (i : Nat) (kind : TokenKind) (line : Nat) : Scanner :=
  let later := s.count - i
  { s with tokens := s.tokens.take later ++ ⟨kind, line⟩ :: s.tokens.drop later,
           count := s.count + 1 }

def push (s : Scanner) (kind : TokenKind) (line : Nat) : Scanner := s.insert s.count kind line

def keyIsFresh (s : Scanner) (k : KeyStart) : Bool :=
  s.mark.line ≤ k.mark.line && s.mark.index ≤ k.mark.index + 1024

/-- The number of tokens that are not held back by a key. -/
def settled (s : Scanner) : Nat :=
  (s.level :: s.outer).foldl
    (fun n l => if l.key.any fun k => k.awaited && s.keyIsFresh k then min n l.origin else n)
    s.count

def clearKey (s : Scanner) : Scanner := { s with level := { s.level with key := none } }

/-- Gives up the key that may have started on this level, unless there must be one. -/
def dropKey (s : Scanner) : Option Scanner :=
  if s.level.key.any KeyStart.required then none else some s.clearKey

def saveKey (s : Scanner) : Option Scanner :=
  if s.keyAllowed then
    let required := !s.inFlow && s.indent = s.mark.column
    s.dropKey.map fun s => { s with level := ⟨s.count, some ⟨required, s.mark, true⟩⟩ }
  else some s

/-- Opens a block if the column is deeper than the current one; the token goes to place `i`. -/
def openBlock (s : Scanner) (column : Nat) (i : Nat) (kind : TokenKind) (line : Nat) :
    Option Scanner :=
  if !s.inFlow && s.indent < column then
    if maxDepth ≤ s.indents.length then none
    else some (insert { s with indents := s.indent :: s.indents, indent := column } i kind line)
  else some s

/-- Closes the blocks that are deeper than the column. -/
def closeBlocks (s : Scanner) (column : Int) : Scanner :=
  if s.inFlow then s
  else go s.indents s
where
  go : List Int → Scanner → Scanner
    | [], s => s
    | outer :: rest, s =>
      if column < s.indent then
        go rest ({ s with indent := outer, indents := rest }.push .blockEnd s.mark.line)
      else s

/-- Passes spaces, comments and line breaks. A tab counts as space only where no block can
start. -/
def skipGap : Nat → Scanner → Scanner
  | 0, s => s
  | fuel + 1, s =>
    let c := if s.mark.column = 0 && s.cursor.startsWith ['\ufeff'] then s.cursor.skip else s.cursor
    let c := c.dropWhile fun ch => ch = ' ' || ((s.inFlow || !s.keyAllowed) && ch = '\t')
    let c := c.skipComment
    match c.rest with
    | ch :: _ =>
      if isBreak ch then
        skipGap fuel { s with cursor := c.skipLine, keyAllowed := s.keyAllowed || !s.inFlow }
      else { s with cursor := c }
    | [] => { s with cursor := c }

/-- Ends all blocks and keys, as between documents. -/
def reset (s : Scanner) : Option Scanner :=
  (s.closeBlocks (-1)).dropKey.map fun s => { s with keyAllowed := false }

def streamEnd (s : Scanner) : Option Scanner := do
  let m := s.mark
  let m := if m.column = 0 then m else { m with line := m.line + 1, column := 0 }
  let s ← reset { s with cursor := { s.cursor with mark := m } }
  some { s.push .streamEnd m.line with done := true }

def indicator (s : Scanner) (n : Nat) (kind : TokenKind) : Scanner :=
  { s.push kind s.mark.line with cursor := Cursor.skipMany n s.cursor }

def flowStart (s : Scanner) (kind : TokenKind) : Option Scanner := do
  let s ← s.saveKey
  if maxDepth ≤ s.outer.length then none
  else
    let level : Level := ⟨s.count, none⟩
    some (indicator { s with level, outer := s.level :: s.outer, keyAllowed := true } 1 kind)

/-- Goes back to the level around the current one. A key that began with a collection in which no
key could start holds back no tokens any more. -/
def leaveLevel (s : Scanner) : Scanner :=
  match s.outer with
  | [] => s
  | level :: outer =>
    let key := level.key.map fun k =>
      { k with awaited := k.awaited && s.level.origin ≠ level.origin }
    { s with level := { level with key }, outer }

def flowEnd (s : Scanner) (kind : TokenKind) : Option Scanner := do
  let s ← s.dropKey
  some (indicator { s.leaveLevel with keyAllowed := false } 1 kind)

def flowEntry (s : Scanner) : Option Scanner := do
  let s ← s.dropKey
  some (indicator { s with keyAllowed := true } 1 .flowEntry)

def blockEntry (s : Scanner) : Option Scanner := do
  if !s.inFlow && !s.keyAllowed then none
  else
    let s ← s.openBlock s.mark.column s.count .blockSequenceStart s.mark.line
    let s ← s.dropKey
    some (indicator { s with keyAllowed := true } 1 .blockEntry)

def explicitKey (s : Scanner) : Option Scanner := do
  if !s.inFlow && !s.keyAllowed then none
  else
    let s ← s.openBlock s.mark.column s.count .blockMappingStart s.mark.line
    let s ← s.dropKey
    some (indicator { s with keyAllowed := !s.inFlow } 1 .key)

/-- The colon behind a key: the tokens that open the key, and the mapping if it is the first one
of a block, are inserted where the key started. If that token was already settled `before` the
colon was looked for, it has been passed on; then it is too late, and the tokens come last. -/
def value (s : Scanner) (before : Scanner) : Option Scanner :=
  match s.level.key with
  | some k =>
    if s.keyIsFresh k then do
      let late := !k.awaited && s.level.origin < before.settled
      let place (s : Scanner) : Nat := if late then s.count else s.level.origin
      let s := s.insert (place s) .key k.mark.line
      let s ← s.openBlock k.mark.column (place s) .blockMappingStart k.mark.line
      some (indicator { s.clearKey with keyAllowed := false } 1 .value)
    else if k.required then none
    else withoutKey s.clearKey
  | none => withoutKey s
where
  withoutKey (s : Scanner) : Option Scanner := do
    if !s.inFlow && !s.keyAllowed then none
    else
      let s ← s.openBlock s.mark.column s.count .blockMappingStart s.mark.line
      some (indicator { s with keyAllowed := !s.inFlow } 1 .value)

/-- A token that spans several characters, behind its first `n`. -/
def lexeme (s : Scanner) (n : Nat) (read : Cursor → Option (Cursor × TokenKind)) :
    Option Scanner :=
  (read (Cursor.skipMany n s.cursor)).map fun (c, kind) =>
    { s.push kind s.mark.line with cursor := c }

def directive (s : Scanner) : Option Scanner := do
  let s ← s.reset
  s.lexeme 1 readDirective

def keyLexeme (s : Scanner) (n : Nat) (read : Cursor → Option (Cursor × TokenKind)) :
    Option Scanner := do
  let s ← s.saveKey
  lexeme { s with keyAllowed := false } n read

def quoted (s : Scanner) (single : Bool) : Option Scanner :=
  s.keyLexeme 1 fun c =>
    (readQuoted single s.bound s.bound c {}).map fun (c, t) => (c, .scalar t false)

def block (s : Scanner) (literal : Bool) : Option Scanner := do
  let s ← s.dropKey
  lexeme { s with keyAllowed := true } 1 fun c =>
    (readBlock literal s.indent s.bound c).map fun (c, t) => (c, .scalar t false)

def plain (s : Scanner) : Option Scanner := do
  let s ← s.saveKey
  let (c, f) ← readPlain s.inFlow (s.indent + 1).toNat s.bound s.bound s.cursor {}
  let s := { s.push (.scalar f.result true) s.mark.line with cursor := c, keyAllowed := f.broken }
  if !f.broken && s.lacks 2 then none else some s

/-- Whether a plain scalar may start here; `next` is what follows the character. -/
def startsPlain (inFlow : Bool) (ch : Char) (next : List Char) : Bool :=
  let nextIsSpace := match next with
    | c :: _ => isSpace c
    | [] => false
  !(isSpace ch || isBreak ch || "-?:,[]\x7b\x7d#&*!|>'\"%@`".toList.contains ch) ||
    (ch = '-' && !nextIsSpace) || (!inFlow && (ch = '?' || ch = ':') && !isGap next)

def step (s : Scanner) : Option Scanner :=
  let before := s
  let s := skipGap s.bound s
  let s := s.closeBlocks s.mark.column
  -- To tell a marker between documents takes up to four characters.
  if s.lacks 4 then none
  else
  match s.cursor.rest with
  | [] => s.streamEnd
  | ch :: next =>
    let marker := s.cursor.atDocumentMarker
    if s.mark.column = 0 && ch = '%' then s.directive
    else if marker then
      s.reset.map (·.indicator 3 (if ch = '-' then .documentStart else .documentEnd))
    else match ch with
      | '[' => s.flowStart .flowSequenceStart
      | '\x7b' => s.flowStart .flowMappingStart
      | ']' => s.flowEnd .flowSequenceEnd
      | '\x7d' => s.flowEnd .flowMappingEnd
      | ',' => s.flowEntry
      | '*' => s.keyLexeme 1 fun c => (readAnchor c).map fun (c, n) => (c, .alias n)
      | '&' => s.keyLexeme 1 fun c => (readAnchor c).map fun (c, n) => (c, .anchor n)
      | '!' => s.keyLexeme 0 fun c => (readTag c).map fun (c, h, x) => (c, .tag h x)
      | '\'' => s.quoted true
      | '"' => s.quoted false
      | _ =>
        -- These indicators stand for themselves before a gap only, and else may begin a plain
        -- scalar.
        if ch = '-' && isGap next then s.blockEntry
        else if ch = '?' && (s.inFlow || isGap next) then s.explicitKey
        else if ch = ':' && (s.inFlow || isGap next) then s.value before
        else if ch = '|' && !s.inFlow then s.block true
        else if ch = '>' && !s.inFlow then s.block false
        else if startsPlain s.inFlow ch next then s.plain
        else none

def settledTokens (s : Scanner) : List Token := s.tokens.reverse.take s.settled

/-- Reads tokens to the end of the text, or as far as that is possible. -/
def run : Nat → Scanner → List Token
  | 0, s => s.settledTokens
  | fuel + 1, s =>
    match s.step with
    | none => s.settledTokens
    | some next =>
      if next.lacks 1 then s.settledTokens
      else if next.done then next.tokens.reverse
      else run fuel next

end Scanner

/-- The tokens of a text, ending with the end of the stream if the text is well formed. -/
def scan (text : String) : List Token :=
  let (chars, cut) := readable text
  Scanner.run (chars.length + 2) (.start chars cut)

end AbstractFlow.Yaml

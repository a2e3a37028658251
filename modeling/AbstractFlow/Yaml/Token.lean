/-!
# Tokens of a YAML document

Tokens carry the line they start on. A cursor walks over the characters of a document and counts
lines and columns; all five line breaks of the format end a line.
-/
namespace AbstractFlow.Yaml

structure Mark where
  index : Nat
  line : Nat
  column : Nat
deriving Inhabited

inductive TokenKind where
  | streamEnd
  | versionDirective (major minor : Nat)
  | tagDirective (handle uri : String)
  | documentStart
  | documentEnd
  | blockSequenceStart
  | blockMappingStart
  | blockEnd
  | flowSequenceStart
  | flowSequenceEnd
  | flowMappingStart
  | flowMappingEnd
  | blockEntry
  | flowEntry
  | key
  | value
  | alias (name : String)
  | anchor (name : String)
  | tag (handle suffix : String)
  | scalar (text : String) (plain : Bool)
deriving DecidableEq, Inhabited

structure Token where
  kind : TokenKind
  line : Nat
deriving Inhabited

def isBreak (c : Char) : Bool :=
  c = '\n' || c = '\r' || c.toNat = 0x85 || c.toNat = 0x2028 || c.toNat = 0x2029

def isSpace (c : Char) : Bool := c = ' ' || c = '\t'

/-- Whether the text ends here or goes on with a space or a line break. -/
def isGap : List Char → Bool
  | [] => true
  | c :: _ => isSpace c || isBreak c

/-- Whether the text ends here or goes on with a line break. -/
def isLineEnd : List Char → Bool
  | [] => true
  | c :: _ => isBreak c

def isWordChar (c : Char) : Bool := c.isAlphanum || c = '_' || c = '-'

structure Cursor where
  rest : List Char
  mark : Mark

namespace Cursor

def skip (c : Cursor) : Cursor :=
  ⟨c.rest.tail, { c.mark with index := c.mark.index + 1, column := c.mark.column + 1 }⟩

def skipMany : Nat → Cursor → Cursor
  | 0, c => c
  | n + 1, c => skipMany n c.skip

private def nextLine (c : Cursor) (rest : List Char) (width : Nat) : Cursor :=
  ⟨rest, ⟨c.mark.index + width, c.mark.line + 1, 0⟩⟩

/-- Passes a line break, and gives the character it stands for. -/
def readLine (c : Cursor) : Cursor × List Char :=
  match c.rest with
  | '\r' :: '\n' :: rest => (c.nextLine rest 2, ['\n'])
  | b :: rest =>
    if b = '\n' ∨ b = '\r' ∨ b.toNat = 0x85 then (c.nextLine rest 1, ['\n'])
    else if isBreak b then (c.nextLine rest 1, [b])
    else (c, [])
  | [] => (c, [])

def skipLine (c : Cursor) : Cursor := c.readLine.1

/-- Passes characters of a class, none of which is a line break. -/
def takeWhile (p : Char → Bool) (c : Cursor) : List Char × Cursor :=
  let taken := c.rest.takeWhile p
  (taken, skipMany taken.length c)

def dropWhile (p : Char → Bool) (c : Cursor) : Cursor := (c.takeWhile p).2

def startsWith (c : Cursor) (text : List Char) : Bool := text.isPrefixOf c.rest

/-- Whether a line begins here with a marker between documents. -/
def atDocumentMarker (c : Cursor) : Bool :=
  c.mark.column = 0 && (c.startsWith ['-', '-', '-'] || c.startsWith ['.', '.', '.']) &&
    isGap (c.rest.drop 3)

def skipComment (c : Cursor) : Cursor :=
  match c.rest with
  | '#' :: _ => c.dropWhile fun ch => !isBreak ch
  | _ => c

end Cursor

end AbstractFlow.Yaml

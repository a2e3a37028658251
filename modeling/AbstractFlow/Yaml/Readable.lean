/-!
# What can be read of a text

Text is taken in by windows of 512 bytes, each ending with a complete character. A forbidden
character makes its whole window unreadable, and all that follows; what stands before it can still
be used.
-/
namespace AbstractFlow.Yaml

/-- Characters that may stand in a document. -/
def isAllowed (c : Char) : Bool :=
  let n := c.toNat
  n = 0x09 || n = 0x0a || n = 0x0d || (0x20 ≤ n && n ≤ 0x7e) || n = 0x85 ||
    (0xa0 ≤ n && n ≤ 0xd7ff) || (0xe000 ≤ n && n ≤ 0xfffd) || 0x10000 ≤ n

def windowSize : Nat := 512

/-- The number of characters before the first window with a forbidden character. The current
window started with character `start` and has room for `room` more bytes before character
`index`. -/
def readableCount (room start index : Nat) : List Char → Nat
  | [] => index
  | c :: cs =>
    let (room, start) := if c.utf8Size ≤ room then (room, start) else (windowSize, index)
    if isAllowed c then readableCount (room - c.utf8Size) start (index + 1) cs else start

/-- A text as characters, and the size of its byte order mark, which is not part of them. -/
def splitMark (text : String) : Nat × List Char :=
  match text.toList with
  | '\ufeff' :: cs => ('\ufeff'.utf8Size, cs)
  | cs => (0, cs)

/-- The characters of a text that can be read, and whether there are any others. -/
def readable (text : String) : List Char × Bool :=
  let (markSize, cs) := splitMark text
  let count := readableCount (windowSize - markSize) 0 0 cs
  (cs.take count, count < cs.length)

end AbstractFlow.Yaml

/-!
# Columns

Text laid out in columns. A tab ends a cell, and in consecutive lines the cells of one column are
filled up with blanks to the same width. The last cell of a line belongs to no column.
-/
namespace AbstractFlow.Columns

/-- How wide a column is at least, and by how much its longest cell is exceeded. -/
structure Format where
  minWidth : Nat
  padding : Nat

def cut (isEnd : Char → Bool) : List Char → List (List Char)
  | [] => [[]]
  | c :: rest =>
    if isEnd c then [] :: cut isEnd rest
    else match cut isEnd rest with
      | [] => [[c]]
      | cell :: cells => (c :: cell) :: cells

abbrev Line := List (List Char)

def cellsOf (line : List Char) : Line := cut (fun c => c = '\t' || c = '\x0b') line

/-- The longest cell of a column in the lines from here on that have the column. -/
def reach (column : Nat) : List Line → Nat
  | [] => 0
  | line :: rest =>
    if column + 1 < line.length then max (line.getD column []).length (reach column rest) else 0

/-- A line with its cells filled up; `above` holds the lines before it, the nearest first, and
`below` those after it. -/
def fillLine (f : Format) (above : List Line) (line : Line) (below : List Line) : List Char :=
  (line.zipIdx.map fun (cell, j) =>
    if j + 1 < line.length then
      let longest := max cell.length (max (reach j above) (reach j below))
      cell ++ List.replicate (max f.minWidth (longest + f.padding) - cell.length) ' '
    else cell).flatten

def fillLines (f : Format) (above : List Line) : List Line → List (List Char)
  | [] => []
  | line :: rest => fillLine f above line rest :: fillLines f (line :: above) rest

/-- Lays out lines of text. A form feed ends a line too, and nothing is aligned across it. -/
def layout (f : Format) (text : String) : String :=
  let blocks := cut (· = '\x0c') text.toList
  let lines := blocks.flatMap fun block => fillLines f [] ((cut (· = '\n') block).map cellsOf)
  String.ofList (['\n'].intercalate lines)

end AbstractFlow.Columns

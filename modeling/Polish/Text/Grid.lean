import Polish.Text.Width

/-!
# Boxed tables

A table is drawn with a border around it and a line under its header. Header cells are centred,
other cells stand at the left; a column is as wide as its widest cell. A cell wider than
`Grid.wrapWidth` columns is broken between words, so that the lines of the cell but the last come
close to the width; a single word is never broken.

* `Grid.wrap`: the lines of a cell.
* `Grid.render`: the whole table.
-/

namespace Polish.Grid

/-- Cells are broken when they are wider than this. -/
def wrapWidth : Nat := 30

/-- What a line that is too wide costs on top. -/
def overflowPenalty : Nat := 100000

/-- No plan costs this much. -/
def costLimit : Nat := 2147483647

/-! ### Breaking a cell into lines -/

/-- The cost of a line of `width` columns before the last line. -/
def lineCost (limit width : Nat) : Nat :=
  let gap := if limit < width then width - limit else limit - width
  gap * gap + if limit < width then overflowPenalty else 0

/-- The best first line of a paragraph that does not fit on one line: its cost with all that
follows, and its number of words. `width` columns and `count` words are on the line so far, `words`
holds the widths of the next words and `plans` the costs from each of them on. Of equal plans the
shortest first line wins. -/
def bestBreak (limit : Nat) : Nat → Nat → List Nat → List (Nat × Nat) → Nat × Nat → Nat × Nat
  | width, count, w :: words, plan :: plans, best =>
    let cost := lineCost limit width + plan.1
    let best := if cost < best.1 then (cost, count) else best
    bestBreak limit (width + 1 + w) (count + 1) words plans best
  | _, _, _, _, best => best

/-- The width of words on one line, with a blank between neighbours. -/
def lineWidth : List Nat → Nat
  | [] => 0
  | w :: words => words.foldl (fun sum v => sum + 1 + v) w

/-- For every word, the cost of a paragraph that starts there and the words on its first line. -/
def plans (limit : Nat) : List Nat → List (Nat × Nat)
  | [] => []
  | w :: words =>
    let later := plans limit words
    let plan :=
      if lineWidth (w :: words) ≤ limit then (0, words.length + 1)
      else bestBreak limit w 1 words later (costLimit, 0)
    plan :: later

/-- Cuts words into lines as planned; `skip` words belong to the line already begun. -/
def cut : Nat → List Bytes → List (Nat × Nat) → List (List Bytes)
  | skip + 1, _ :: words, _ :: plans => cut skip words plans
  | 0, w :: words, plan :: plans => (w :: words).take plan.2 :: cut (plan.2 - 1) words plans
  | _, _, _ => []

/-- The width up to which a cell is filled. -/
def fillWidth (cell : Bytes) : Nat :=
  min wrapWidth ((cell.lines.map Bytes.displayWidth).foldl max 0)

/-- The lines of a cell. -/
def wrap (cell : Bytes) : List Bytes :=
  let words := (cell.map fun b => if b = Bytes.newline then 0x20 else b).splitOn 0x20
  let widths := words.map Bytes.width
  let limit := widths.foldl max (fillWidth cell)
  (cut 0 words (plans limit widths)).map (Bytes.join " ")

/-- The width a cell asks for. -/
def cellWidth (cell : Bytes) : Nat :=
  ((wrap cell).map Bytes.displayWidth).foldl max (fillWidth cell)

/-! ### Drawing -/

/-- The text at the left of `width` columns. -/
def padLeft (width : Nat) (text : Bytes) : Bytes :=
  text ++ Bytes.spaces (width - text.displayWidth)

/-- The text in the middle of `width` columns, nearer to the left. -/
def padCentre (width : Nat) (text : Bytes) : Bytes :=
  let gap := width - text.displayWidth
  Bytes.spaces (gap / 2) ++ text ++ Bytes.spaces (gap - gap / 2)

/-- The border of one column. -/
def dashes (width : Nat) : Bytes := Bytes.repeated (width + 2) 0x2D ++ "+"

/-- A horizontal border. -/
def border (widths : List Nat) : Bytes := "+" ++ widths.flatMap dashes ++ "\n"

/-- A padded cell with the bar after it. -/
def boxed (cell : Bytes) : Bytes := " " ++ cell ++ " |"

/-- One line of padded cells. -/
def rule (cells : List Bytes) : Bytes := "|" ++ cells.flatMap boxed ++ "\n"

/-- A row: as many lines as its highest cell. -/
def row (pad : Nat → Bytes → Bytes) (widths : List Nat) (cells : List Bytes) : Bytes :=
  let columns := cells.map wrap
  let height := (columns.map List.length).foldl max 0
  (List.range height).flatMap fun k =>
    rule (List.zipWith (fun w lines => pad w (lines.getD k [])) widths columns)

/-- The width of each column. -/
def columnWidths (header : List Bytes) (rows : List (List Bytes)) : List Nat :=
  rows.foldl (fun widths cells => List.zipWith max widths (cells.map cellWidth))
    (header.map cellWidth)

/-- The table. -/
def render (header : List Bytes) (rows : List (List Bytes)) : Bytes :=
  let widths := columnWidths header rows
  border widths ++ row padCentre widths header ++ border widths
    ++ rows.flatMap (row padLeft widths) ++ border widths

end Polish.Grid

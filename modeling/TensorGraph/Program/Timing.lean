import TensorGraph.Program.Linking
import TensorGraph.Text

/-!
# Timing reports

How long the steps of a run took, summed up by operator and by the shapes of their inputs.
-/

namespace TensorGraph

/-- The time that one step took. -/
structure TimingRecord where
  /-- The name of the operator. -/
  name : String
  nodeName : String
  strategy : Strategy
  /-- The inputs that were there. -/
  inputs : List (Option ValueMeta)
  nanoseconds : Nat

namespace TimingRecord

/-- The number of elements of all inputs. -/
def inputElements (r : TimingRecord) : Nat :=
  total (r.inputs.reduceOption.map fun m => volume m.shape)

def inputShapes (r : TimingRecord) : String :=
  ", ".intercalate (r.inputs.map fun input => match input with
    | some m => countsText m.shape
    | none => "_")

end TimingRecord

inductive TimingOrder where
  | byName
  /-- The longest time first. -/
  | byTime
deriving DecidableEq, Repr

/-- Selects records. -/
inductive TimingFilter where
  | operator (name : String)
  | strategy (s : Strategy)
deriving DecidableEq, Repr

def TimingFilter.selects (f : TimingFilter) (r : TimingRecord) : Bool :=
  match f with
  | .operator name => r.name == name
  | .strategy s => r.strategy == s

/-- The times of a run. -/
structure RunTiming where
  records : List TimingRecord := []
  /-- The time of the whole run. -/
  total : Nat := 0

/-- Milliseconds as a double. -/
def milliseconds (nanoseconds : Nat) : Float :=
  (Float.ofNat (nanoseconds / 1000000000) + Float.ofNat (nanoseconds % 1000000000) / 1e9) * 1000

/-! ## Tables -/

/-- A text that is filled up with blanks. The text counts its characters. -/
def padded (width : Nat) (s : String) : String :=
  s ++ String.ofList (List.replicate (width - s.length) ' ')

/-- The widths of the columns of a table with the given number of columns, in bytes. -/
def columnWidths (columns : Nat) (rows : List (List String)) : List Nat :=
  (List.range columns).map fun i =>
    rows.foldl (fun w row => max w (row.getD i "").utf8ByteSize) 0

/-- A table with headings, whose columns are followed by two blanks. -/
def tableLines (indent : Nat) (headings : List String) (rows : List (List String)) : List String :=
  let widths := columnWidths headings.length (headings :: rows)
  let margin := padded indent ""
  let line (cells : List String) :=
    margin ++ String.join ((cells.zip widths).map fun (cell, w) => padded (w + 2) cell)
  let rule := widths.map fun w => String.ofList (List.replicate w '-')
  line headings :: line rule :: rows.map line

/-! ## Times by shape -/

/-- The time that one operator spent on inputs of the same shapes. -/
structure ShapeRow where
  shapes : String
  total : Nat
  count : Nat
  /-- The number of elements of the inputs of the first record. -/
  inputElements : Nat
  exampleNode : String

namespace ShapeRow

def headings : List String :=
  ["Shape", "Count", "Mean (ms)", "Total (ms)", "ns/input elem", "Example node"]

def cells (row : ShapeRow) : List String :=
  let ms := milliseconds row.total
  let elements := max (row.inputElements * row.count) 1
  [row.shapes, toString row.count, fixedText 3 (ms / Float.ofNat (max row.count 1)),
    fixedText 3 ms, fixedText 3 (ms * 1e6 / Float.ofNat elements), row.exampleNode]

/-- Adds a record to the row of its shapes. -/
def addRecord (rows : List ShapeRow) (r : TimingRecord) : List ShapeRow :=
  let shapes := r.inputShapes
  let add (row : ShapeRow) :=
    { row with total := row.total + r.nanoseconds, count := row.count + 1 }
  if rows.any (·.shapes == shapes) then
    rows.map fun row => if row.shapes == shapes then add row else row
  else rows ++ [{ shapes, total := r.nanoseconds, count := 1,
                  inputElements := r.inputElements, exampleNode := r.nodeName }]

end ShapeRow

namespace RunTiming

/-- The records that one of the filters selects. -/
def filter (t : RunTiming) (filters : List TimingFilter) : RunTiming :=
  { t with records := t.records.filter fun r => filters.any (·.selects r) }

/-- Adds up times of one name. -/
def addTime (totals : List (String × Nat)) (r : TimingRecord) : List (String × Nat) :=
  if (totals.lookup r.name).isSome then
    totals.map fun (name, ns) => (name, if name == r.name then ns + r.nanoseconds else ns)
  else totals ++ [(r.name, r.nanoseconds)]

/-- The time of each operator. -/
def byOperator (t : RunTiming) (order : TimingOrder) : List (String × Nat) :=
  let byName := (t.records.foldl addTime []).mergeSort fun a b => a.1 ≤ b.1
  match order with
  | .byName => byName
  | .byTime => byName.mergeSort fun a b => b.2 ≤ a.2

/-- The times of one operator by shape, longest first. -/
def shapeLines (t : RunTiming) (name : String) : List String :=
  let rows := (t.records.filter (·.name == name)).foldl ShapeRow.addRecord []
  tableLines 4 ShapeRow.headings ((rows.mergeSort fun a b => b.total ≤ a.total).map ShapeRow.cells)

/-- The report, with a table of shapes for each operator if `byShape` holds. -/
def lines (t : RunTiming) (order : TimingOrder) (byShape : Bool) : List String :=
  let total := milliseconds t.total
  let rows := (t.byOperator order).map fun (name, ns) =>
    let ms := milliseconds ns
    let percent := if 0 < total then ms / total * 100 else 0
    [name, fixedText 2 ms ++ "ms", "(" ++ fixedText 2 percent ++ "%)"]
  let widths := columnWidths 3 rows
  rows.flatMap fun row =>
    " ".intercalate ((row.zip widths).map fun (cell, w) => padded w cell) ::
      if byShape then "" :: t.shapeLines (row.headD "") ++ [""] else []

def text (t : RunTiming) (order : TimingOrder) (byShape : Bool) : String :=
  String.join ((t.lines order byShape).map (· ++ "\n"))

end RunTiming

end TensorGraph

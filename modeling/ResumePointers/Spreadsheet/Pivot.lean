import ResumePointers.Lib.GroupSums

/-! The pivot table (`frontend/src/components/PlotCOmponent.jsx` with the route `/get-plot-data` of
`backend/app.js`). Rows and columns are told apart as values, their sums by the names that the
values have as properties of an object. -/
namespace ResumePointers.Spreadsheet.Pivot

abbrev Text := List Char

/-- A row of the database table: the aggregated column and the two pivot columns, where `none` is
`null`. -/
structure Row where
  x : ℚ
  y1 : Option Text
  y2 : Option Text
deriving DecidableEq

/-- The pivot values of a row. -/
def Row.pair (row : Row) : Option Text × Option Text := (row.y1,row.y2)

/-- An error of the language, or of the library that renders the table. -/
inductive Failure
  | typeError
  | invalidChild
deriving DecidableEq

/-- The table that is shown: the headings of its columns, and its rows with their headings. -/
structure PivotTable where
  uniqueCols : List (Option Text)
  body : List (Option Text × List ℚ)
deriving DecidableEq

/-- The name of a property: the string of a value. -/
def nameOf : Option Text → Text
  | none => ['n','u','l','l']
  | some t => t

def protoName : Text := ['_','_','p','r','o','t','o','_','_']

/-- An object whose own properties are numbers. -/
abbrev Inner := Text → Option ℚ

/-- `pivotData`. An object that is assigned to `__proto__` is read from there again. -/
abbrev Outer := Text → Option Inner

/-- `o[name] = x`. The property `__proto__` stays what it is, for it takes no number. -/
def Inner.set (o : Inner) (name : Text) (x : ℚ) : Inner :=
  if name = protoName then o else Function.update o name (some x)

/-- `o[name] += x`, for a property that is a number or `__proto__`. -/
def Inner.add (o : Inner) (name : Text) (x : ℚ) : Inner :=
  match o name with
  | some a => o.set name (a + x)
  | none => o

/-- A change of the object at a name; there is one at every name that is used. -/
def Outer.modify (p : Outer) (name : Text) (f : Inner → Inner) : Outer :=
  Function.update p name ((p name).map f)

/-- The cells with the values they are shown for. -/
def PivotTable.cells (t : PivotTable) : List ((Option Text × Option Text) × ℚ) :=
  t.body.flatMap fun (row,values) => (t.uniqueCols.zip values).map fun (col,x) => ((row,col),x)

open GroupSums

variable {o : Inner} {p : Outer} {n m name : Text} {x : ℚ} {r c : Option Text}
  {rows cols : List (Option Text)} {table : List Row} {t : PivotTable}
  {pairs : List (Option Text × Option Text)}

/-- The object of a row before anything is added. -/
def zeros (cols : List (Option Text)) : Inner := fun m =>
  if m ≠ protoName ∧ ∃ col ∈ cols, nameOf col = m then some 0 else none

/-- The names under which the value of a row is added. -/
def Row.names (row : Row) : Text × Text := (nameOf row.y1,nameOf row.y2)

/-- What is shown when no column has the name `__proto__`. -/
def shown (table : List Row) (rows cols : List (Option Text)) : PivotTable :=
  ⟨cols,rows.map fun r => (r,cols.map fun c =>
    groupSum Row.names Row.x table (nameOf r,nameOf c))⟩

end ResumePointers.Spreadsheet.Pivot

import Mathlib
import ResumePointers.Lib.Runs

/-! Edits of table cells in the spreadsheet (`frontend/src/components/Sheet.jsx`), executed by the
route `/handle-cell-change` of `backend/app.js`. The values of the database are of any type `V`;
what the database converts and accepts is a parameter. -/
namespace ResumePointers.Spreadsheet

variable {V : Type}

/-- A row of the table by its column names. -/
abbrev Row (V : Type) := String → V

/-- A table with a primary key; `coerce` reads a text as a value of the column, and `accepts` are
the constraints besides the primary key. -/
structure Schema (V : Type) where
  columns : List String
  primaryKeyCols : List String
  coerce : String → String → Option V
  accepts : List (Row V) → Bool

/-- `primarykeyvals` of a row. -/
def Schema.keyOf (T : Schema V) (row : Row V) : List V := T.primaryKeyCols.map row

/-- The database takes these rows for the table. -/
def Schema.allows [DecidableEq V] (T : Schema V) (rows : List (Row V)) : Bool :=
  decide (rows.map T.keyOf).Nodup && T.accepts rows

/-- `UPDATE ... SET col = v WHERE` the primary key is `vals`. -/
def Schema.update [DecidableEq V] (T : Schema V) (rows : List (Row V)) (vals : List V) (col : String) (v : V) :
    List (Row V) :=
  rows.map fun row => if T.keyOf row = vals then Function.update row col v else row

/-- The body of the request; a field that is `undefined` in the sender is missing. -/
structure Payload (V : Type) where
  col : Option String
  newData : String
  primaryKeyVals : Option (List V)

structure Response where
  status : ℕ
  message : String

def notFound : Response := ⟨400,"Invalid row - primary key not found."⟩
def failed : Response := ⟨500,"Error updating cell check schema once"⟩
def updated : Response := ⟨200,"Cell updated successfully"⟩

/-- The route `/handle-cell-change`. -/
def handle_cell_change [DecidableEq V] (T : Schema V) (p : Payload V) (rows : List (Row V)) :
    Response × List (Row V) :=
  match p.primaryKeyVals,T.primaryKeyCols with
  | some vals,_::_ =>
    if (rows.filter fun row => T.keyOf row = vals).length = 0 then (notFound,rows)
    else
      match p.col with
      | some col =>
        match T.coerce col p.newData with
        | some v =>
          if T.allows (T.update rows vals col v) then (updated,T.update rows vals col v)
          else (failed,rows)
        | none => (failed,rows)
      | none => (failed,rows)
  | _,_ => (failed,rows)

/-- What a cell shows: a value that was fetched, or the text that was typed. -/
inductive Shown (V : Type)
  | data (v : V)
  | text (s : String)

/-- A cell of the grid; the cells of the header have no `pkey`. -/
structure Cell (V : Type) where
  value : Shown V
  pkey : Option (List V)

abbrev Grid (V : Type) := List (List (Cell V))

/-- The grid that `fetchData` sets. -/
def fetchData (T : Schema V) (rows : List (Row V)) : Grid V :=
  (T.columns.map fun col => ⟨.text col,none⟩)::
    rows.map fun row => T.columns.map fun col => ⟨.data (row col),some (T.keyOf row)⟩

structure Change (V : Type) where
  cell : Cell V
  row : ℕ
  col : ℕ
  value : String

/-- The sheet while `handleCellsChanged` goes through `changes`: the grid on the screen, `newGrid`,
the changes left, the message, and the rows in the database. -/
structure Sheet (V : Type) where
  grid : Grid V
  newGrid : Grid V
  changes : List (Change V)
  message : String
  messageColor : String
  rows : List (Row V)

def Change.payload (T : Schema V) (c : Change V) : Payload V :=
  ⟨T.columns[c.col]?,c.value,c.cell.pkey⟩

/-- One round of the loop of `handleCellsChanged`. -/
def Sheet.handle [DecidableEq V] (T : Schema V) (c : Change V) (s : Sheet V) : Sheet V :=
  if c.row = 0 then s
  else
    let (response,rows) := handle_cell_change T (c.payload T) s.rows
    if response.status = 200 then
      let updatedCell := { c.cell with value := .text c.value }
      { s with
        newGrid := s.newGrid.modify c.row fun row => row.set c.col updatedCell
        message := response.message, messageColor := "green", rows := rows }
    else { s with message := response.message, messageColor := "red", rows := rows }

/-- `handleCellsChanged` is called with new texts at positions of the grid, makes its next request,
or has none left. -/
inductive Event
  | cellsChanged (positions : List (ℕ × ℕ × String))
  | next
  | finish

/-- The argument `changes` for new texts at positions of the grid. -/
def changesAt (grid : Grid V) (positions : List (ℕ × ℕ × String)) : List (Change V) :=
  positions.filterMap fun p => do
    let row ← grid[p.1]?
    let cell ← row[p.2.1]?
    pure ⟨cell,p.1,p.2.1,p.2.2⟩

def exec [DecidableEq V] (T : Schema V) (e : Event) : EStateM Unit (Sheet V) Unit := do
  let s ← get
  match e,s.changes with
  | .cellsChanged positions,[] => set { s with
      newGrid := s.grid, changes := changesAt s.grid positions }
  | .next,c::changes => set { s.handle T c with changes := changes }
  | .finish,[] => set { s with grid := s.newGrid }
  | _,_ => throw ()

/-- The sheet when the table has been fetched. -/
def start (T : Schema V) (rows : List (Row V)) : Sheet V :=
  ⟨fetchData T rows,fetchData T rows,[],"","",rows⟩

/-- The keys of the database rows, in the order of the grid. -/
def Schema.keys (T : Schema V) (rows : List (Row V)) : List (List V) := rows.map T.keyOf

/-- Every cell of a grid row below the header has the key of the row that it displays. -/
structure Keyed (grid : Grid V) (keys : List (List V)) : Prop where
  length : grid.length = keys.length + 1
  key : ∀ i k cells, keys[i]? = some k → grid[i + 1]? = some cells →
    ∀ cell ∈ cells, cell.pkey = some k

structure Inv (T : Schema V) (s : Sheet V) : Prop where
  nodup : (T.keys s.rows).Nodup
  grid : Keyed s.grid (T.keys s.rows)
  newGrid : Keyed s.newGrid (T.keys s.rows)
  changes : ∀ c ∈ s.changes, 0 < c.row →
    ∃ k, (T.keys s.rows)[c.row - 1]? = some k ∧ c.cell.pkey = some k

/-- The cell is not in a key column, or the new text is converted to the value that it has
already, or the database refuses it. -/
def Harmless [DecidableEq V] (T : Schema V) (c : Change V) (rows : List (Row V)) : Prop :=
  ∀ row col v, rows[c.row - 1]? = some row → T.columns[c.col]? = some col →
    col ∈ T.primaryKeyCols → T.coerce col c.value = some v →
      T.allows (rows.modify (c.row - 1) fun r => Function.update r col v) = true → v = row col

/-- The next change is harmless. -/
def Allowed [DecidableEq V] (T : Schema V) (e : Event) (s : Sheet V) : Prop :=
  ∀ c cs, e = .next → s.changes = c::cs → Harmless T c s.rows

variable {T : Schema V} {s : Sheet V} {c : Change V} {rows rows' : List (Row V)} {row : Row V}
  {grid : Grid V} {ks : List (List V)} {k : List V} {col : String} {v : V} {i : ℕ}

theorem keyOf_update (h : col ∉ T.primaryKeyCols) (row : Row V) (v : V) :
    T.keyOf (Function.update row col v) = T.keyOf row := by
  refine List.map_congr_left fun col' hc => ?_
  have hne : col' ≠ col := by
    rintro rfl
    exact h hc
  exact Function.update_of_ne hne ..

theorem Keyed.modify (h : Keyed grid ks) (hk : ks[i - 1]? = some k) (hi : 0 < i) (j : ℕ)
    {cell : Cell V} (hc : cell.pkey = some k) :
    Keyed (grid.modify i fun row => row.set j cell) ks := by
  refine ⟨by rw [List.length_modify]; exact h.length,fun i' k' cells hk' hcells cell' hm => ?_⟩
  by_cases hii : i = i' + 1
  · subst hii
    rw [List.getElem?_modify_eq] at hcells
    obtain ⟨row,hrow,rfl⟩ := Option.map_eq_some_iff.mp hcells
    rcases List.mem_or_eq_of_mem_set hm with hm | rfl
    · exact h.key i' k' row hk' hrow cell' hm
    · rw [hc,← hk']
      exact hk.symm
  · rw [List.getElem?_modify_ne _ _ hii] at hcells
    exact h.key i' k' cells hk' hcells cell' hm

theorem Inv.cellsChanged (h : Inv T s) (positions : List (ℕ × ℕ × String)) :
    Inv T { s with newGrid := s.grid, changes := changesAt s.grid positions } := by
  refine ⟨h.nodup,h.grid,h.grid,fun c hc hrow => ?_⟩
  obtain ⟨p,-,hp⟩ := List.mem_filterMap.mp hc
  cases hcells : s.grid[p.1]? with
  | none => simp [hcells] at hp
  | some cells =>
    cases hcell : cells[p.2.1]? with
    | none => simp [hcells,hcell] at hp
    | some cell =>
      simp only [hcells,hcell,Option.pure_def,Option.bind_eq_bind,Option.bind_some,
        Option.some.injEq] at hp
      subst hp
      have hlt := (List.getElem?_eq_some_iff.mp hcells).1
      dsimp only at hrow ⊢
      have hlen := h.grid.length
      have hk := List.getElem?_eq_getElem (show p.1 - 1 < (T.keys s.rows).length by omega)
      refine ⟨_,hk,h.grid.key _ _ cells hk ?_ cell (List.mem_of_getElem? hcell)⟩
      rw [Nat.sub_add_cancel hrow]
      exact hcells

theorem Inv.start (T : Schema V) (hn : (T.keys rows).Nodup) : Inv T (start T rows) := by
  have hkeyed : Keyed (fetchData T rows) (T.keys rows) := by
    refine ⟨by simp [fetchData,Schema.keys],fun i k cells hk hcells cell hcell => ?_⟩
    rw [fetchData,List.getElem?_cons_succ,List.getElem?_map] at hcells
    rw [Schema.keys,List.getElem?_map] at hk
    cases hrow : rows[i]? with
    | none => simp [hrow] at hk
    | some row =>
      rw [hrow] at hk hcells
      obtain rfl := Option.some.inj hk
      obtain rfl := Option.some.inj hcells
      obtain ⟨col,-,rfl⟩ := List.mem_map.mp hcell
      rfl
  exact ⟨hn,hkeyed,hkeyed,fun c hc => by cases hc⟩

variable [DecidableEq V]

/-- The condition on the primary key holds of one row at most. -/
theorem update_eq (hn : (T.keys rows).Nodup) (hk : (T.keys rows)[i]? = some k) :
    T.update rows k col v = rows.modify i fun r => Function.update r col v := by
  refine List.ext_getElem? fun j => ?_
  rw [Schema.update,List.getElem?_map,List.getElem?_modify]
  cases hj : rows[j]? with
  | none => simp
  | some r =>
    have hkj : (T.keys rows)[j]? = some (T.keyOf r) := by
      rw [Schema.keys,List.getElem?_map,hj]
      rfl
    by_cases hij : i = j
    · subst hij
      have hr := Option.some.inj (hkj.symm.trans hk)
      simp [hr]
    · have hne : T.keyOf r ≠ k := by
        rintro rfl
        obtain ⟨hlt,_⟩ := List.getElem?_eq_some_iff.mp hk
        exact hij ((List.getElem?_inj hlt hn).mp (hk.trans hkj.symm))
      simp [hij,hne]

/-- What an answered request has done to the database. -/
theorem handle_cell_change_spec {vals : List V} (hn : (T.keys rows).Nodup)
    (hk : (T.keys rows)[i]? = some vals) (col : Option String) (newData : String) :
    (handle_cell_change T ⟨col,newData,some vals⟩ rows).1.status ≠ 200 ∧
      (handle_cell_change T ⟨col,newData,some vals⟩ rows).2 = rows ∨
    ∃ name v, col = some name ∧ T.coerce name newData = some v ∧
      T.allows (rows.modify i fun r => Function.update r name v) = true ∧
      handle_cell_change T ⟨col,newData,some vals⟩ rows =
        (updated,rows.modify i fun r => Function.update r name v) := by
  have hfailed : failed.status ≠ 200 := by decide
  have hnotFound : notFound.status ≠ 200 := by decide
  rw [handle_cell_change]
  cases hp : T.primaryKeyCols with
  | nil => exact .inl ⟨hfailed,rfl⟩
  | cons p ps =>
    dsimp only
    split_ifs with hfound
    · exact .inl ⟨hnotFound,rfl⟩
    · cases col with
      | none => exact .inl ⟨hfailed,rfl⟩
      | some name =>
        dsimp only
        cases hc : T.coerce name newData with
        | none => exact .inl ⟨hfailed,rfl⟩
        | some v =>
          dsimp only
          rw [update_eq hn hk]
          split_ifs with hallow
          · exact .inr ⟨name,v,rfl,hc,hallow,rfl⟩
          · exact .inl ⟨hfailed,rfl⟩

/-- A harmless change leaves all keys of the table. -/
theorem Harmless.keeps (h : Harmless T c rows) (hcol : T.columns[c.col]? = some col)
    (hv : T.coerce col c.value = some v)
    (hallow : T.allows (rows.modify (c.row - 1) fun r => Function.update r col v) = true) :
    T.keys (rows.modify (c.row - 1) fun r => Function.update r col v) = T.keys rows := by
  refine List.ext_getElem? fun j => ?_
  rw [Schema.keys,Schema.keys,List.getElem?_map,List.getElem?_map,List.getElem?_modify]
  cases hj : rows[j]? with
  | none => rfl
  | some r =>
    by_cases hij : c.row - 1 = j
    · subst hij
      by_cases hkey : col ∈ T.primaryKeyCols
      · have hold := h r col v hj hcol hkey hv hallow
        subst hold
        simp
      · simp [keyOf_update hkey]
    · simp [hij]

/-- An answered change has set one cell of the database, the one shown at its position. -/
theorem Inv.handled (h : Inv T s) {cs : List (Change V)} (hc : s.changes = c::cs)
    (hrow : 0 < c.row) : (handle_cell_change T (c.payload T) s.rows).1.status ≠ 200 ∧
      (handle_cell_change T (c.payload T) s.rows).2 = s.rows ∨
    ∃ col v, T.columns[c.col]? = some col ∧ T.coerce col c.value = some v ∧
      T.allows (s.rows.modify (c.row - 1) fun r => Function.update r col v) = true ∧
      handle_cell_change T (c.payload T) s.rows =
        (updated,s.rows.modify (c.row - 1) fun r => Function.update r col v) := by
  obtain ⟨k,hk,hkey⟩ := h.changes c (hc ▸ List.mem_cons_self ..) hrow
  have hspec := handle_cell_change_spec h.nodup hk T.columns[c.col]? c.value
  rw [Change.payload,hkey]
  exact hspec

theorem Inv.next (h : Inv T s) {cs : List (Change V)} (hc : s.changes = c::cs)
    (hok : Harmless T c s.rows) : Inv T { s.handle T c with changes := cs } := by
  have hrest : ∀ c ∈ cs, 0 < c.row →
      ∃ k, (T.keys s.rows)[c.row - 1]? = some k ∧ c.cell.pkey = some k := fun c hcs =>
    h.changes c (hc ▸ List.mem_cons_of_mem _ hcs)
  rw [Sheet.handle]
  by_cases hrow : c.row = 0
  · rw [if_pos hrow]
    exact ⟨h.nodup,h.grid,h.newGrid,hrest⟩
  · have hpos := Nat.pos_of_ne_zero hrow
    rw [if_neg hrow]
    rcases h.handled hc hpos with ⟨hstatus,hrows⟩ | ⟨col,v,hcol,hv,hallow,hall⟩
    · dsimp only
      rw [if_neg hstatus,hrows]
      exact ⟨h.nodup,h.grid,h.newGrid,hrest⟩
    · obtain ⟨k,hk,hkey⟩ := h.changes c (hc ▸ List.mem_cons_self ..) hpos
      have hkeys := hok.keeps hcol hv hallow
      rw [hall]
      dsimp only
      rw [if_pos (show updated.status = 200 from rfl)]
      refine ⟨hkeys ▸ h.nodup,hkeys ▸ h.grid,?_,hkeys ▸ hrest⟩
      rw [hkeys]
      exact h.newGrid.modify hk hpos c.col hkey

theorem exec_inv (e : Event) (h : Inv T s) (hok : Allowed T e s) :
    Partial (exec T e) s fun _ t => Inv T t := by
  rw [exec,Partial,post_bind,post_get]
  cases e with
  | cellsChanged positions =>
    cases hc : s.changes with
    | nil => exact h.cellsChanged positions
    | cons c cs => trivial
  | next =>
    cases hc : s.changes with
    | nil => trivial
    | cons c cs => exact h.next hc (hok c cs rfl hc)
  | finish =>
    cases hc : s.changes with
    | nil => exact ⟨h.nodup,h.newGrid,h.newGrid,fun c hmem => by cases hmem⟩
    | cons c cs => trivial

end ResumePointers.Spreadsheet

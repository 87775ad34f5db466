import ResumePointers.Spreadsheet.Formula

/-! The cells that a formula reads while the sheet changes (`frontend/src/components/Sheet.jsx`).
An evaluation that leaves the grid ends in a `TypeError`, which no message tells of. -/
namespace ResumePointers.Spreadsheet.FormulaBounds

/-- The state of the component that formulas have to do with. -/
structure Sheet where
  grid : TextGrid
  formulaGrid : FormulaCell
  message : String
  messageColor : String

/-- A text is entered into the formula cell, or the grid becomes another: after an edit, with
another row, or for another table. -/
inductive Event
  | formula (value : List Char)
  | setGrid (grid : TextGrid)

/-- `handleFormula`, or `evaluateFormulaCell` as the effect of `setGrid`. -/
def step (s : Sheet) : Event → Except Failure Sheet
  | .formula value => do
    let (cell,message,messageColor) ← handleFormula s.grid s.message s.messageColor [value]
    pure ⟨s.grid,cell,message,messageColor⟩
  | .setGrid grid => do
    let cell ← evaluateFormulaCell grid s.formulaGrid
    pure { s with grid := grid, formulaGrid := cell }

/-- The grid that is evaluated in a step. -/
def Event.grid (s : Sheet) : Event → TextGrid
  | .formula _ => s.grid
  | .setGrid grid => grid

/-- The formula that is evaluated in a step. -/
def Event.expr (s : Sheet) : Event → List Char
  | .formula value => value
  | .setGrid _ => s.formulaGrid.expr

/-- Every row has a cell for every column. -/
def Rectangular (grid : TextGrid) : Prop := ∃ width, ∀ row ∈ grid, row.length = width

/-- The loops over the range find all the cells in the grid. -/
def ReadsCells (s : Sheet) (e : Event) : Prop :=
  ∀ m, matchFormula (e.expr s) = some m → ∃ values, rangeValues (e.grid s) m = .ok values

/-- There is a cell at the address. -/
def HasCell (grid : TextGrid) (address : List Char) : Prop :=
  ∃ r c row, getCoordinates address = .ok (r,c) ∧ grid[r]? = some row ∧ c < row.length

/-- Both corners of the range lie in the grid. -/
def Confined (s : Sheet) (e : Event) : Prop :=
  ∀ m, matchFormula (e.expr s) = some m →
    HasCell (e.grid s) m.address1 ∧ HasCell (e.grid s) m.address2

variable {grid : TextGrid} {m : Match} {coord1 coord2 : ℕ × ℕ} {r c : ℕ} {s : Sheet} {e : Event}

theorem mapM_ok_iff {α β : Type} {f : α → Except Failure β} {l : List α} :
    (∃ out, l.mapM f = .ok out) ↔ ∀ a ∈ l, ∃ b, f a = .ok b := by
  constructor
  · rintro ⟨out,h⟩ a ha
    obtain ⟨b,-,hb⟩ := ok_of_mapM h ha
    exact ⟨b,hb⟩
  · intro h
    induction l with
    | nil => exact ⟨[],rfl⟩
    | cons a l ih =>
      obtain ⟨b,hb⟩ := h a List.mem_cons_self
      obtain ⟨out,hout⟩ := ih fun x hx => h x (List.mem_cons_of_mem a hx)
      exact ⟨b::out,by rw [List.mapM_cons,hb,hout]; rfl⟩

theorem cellNumber_ok_iff : (∃ num, cellNumber grid r c = .ok num) ↔
    ∃ row, grid[r]? = some row ∧ c < row.length := by
  rw [cellNumber]
  cases hrow : grid[r]? with
  | none => simp
  | some row =>
    cases hcell : row[c]? with
    | none => simpa [hcell] using List.getElem?_eq_none_iff.mp hcell
    | some cell => simpa [hcell] using (List.getElem?_eq_some_iff.mp hcell).1

theorem rangeValues_ok_iff (h₁ : getCoordinates m.address1 = .ok coord1)
    (h₂ : getCoordinates m.address2 = .ok coord2) : (∃ values, rangeValues grid m = .ok values) ↔
      ∀ r, min coord1.1 coord2.1 ≤ r ∧ r ≤ max coord1.1 coord2.1 →
        ∀ c, min coord1.2 coord2.2 ≤ c ∧ c ≤ max coord1.2 coord2.2 →
          ∃ row, grid[r]? = some row ∧ c < row.length := by
  simp only [← cellNumber_ok_iff,← mem_range',← mapM_ok_iff]
  rw [rangeValues,h₁,h₂]
  simp only [bind,Except.bind]
  constructor
  · rintro ⟨values,hvalues⟩
    split at hvalues
    · cases hvalues
    · next rows hrows => exact ⟨rows,hrows⟩
  · rintro ⟨rows,hrows⟩
    rw [hrows]
    exact ⟨_,rfl⟩

/-- The corners are in the range, and in a rectangle nothing of the range lies outside if
they do not. -/
theorem rangeValues_ok_iff_corners (hgrid : Rectangular grid) (m : Match) :
    (∃ values, rangeValues grid m = .ok values) ↔
      HasCell grid m.address1 ∧ HasCell grid m.address2 := by
  cases h₁ : getCoordinates m.address1 with
  | error f =>
    refine iff_of_false ?_ ?_
    · rintro ⟨values,hvalues⟩
      rw [rangeValues,h₁] at hvalues
      cases hvalues
    · rintro ⟨⟨r,c,row,hcoord,-⟩,-⟩
      rw [h₁] at hcoord
      cases hcoord
  | ok coord1 =>
    cases h₂ : getCoordinates m.address2 with
    | error f =>
      refine iff_of_false ?_ ?_
      · rintro ⟨values,hvalues⟩
        rw [rangeValues,h₁,h₂] at hvalues
        cases hvalues
      · rintro ⟨-,⟨r,c,row,hcoord,-⟩⟩
        rw [h₂] at hcoord
        cases hcoord
    | ok coord2 =>
      rw [rangeValues_ok_iff h₁ h₂]
      constructor
      · intro h
        obtain ⟨row1,hrow1,hc1⟩ := h coord1.1 (by omega) coord1.2 (by omega)
        obtain ⟨row2,hrow2,hc2⟩ := h coord2.1 (by omega) coord2.2 (by omega)
        exact ⟨⟨_,_,row1,h₁,hrow1,hc1⟩,⟨_,_,row2,h₂,hrow2,hc2⟩⟩
      · rintro ⟨⟨r1,c1,row1,hcoord1,hrow1,hc1⟩,⟨r2,c2,row2,hcoord2,hrow2,hc2⟩⟩ r hr c hc
        obtain rfl : coord1 = (r1,c1) := Except.ok.inj (h₁.symm.trans hcoord1)
        obtain rfl : coord2 = (r2,c2) := Except.ok.inj (h₂.symm.trans hcoord2)
        obtain ⟨width,hwidth⟩ := hgrid
        have hlt1 := (List.getElem?_eq_some_iff.mp hrow1).1
        have hlt2 := (List.getElem?_eq_some_iff.mp hrow2).1
        have hw1 := hwidth row1 (List.mem_of_getElem? hrow1)
        have hw2 := hwidth row2 (List.mem_of_getElem? hrow2)
        have hlt : r < grid.length := by omega
        have hw := hwidth grid[r] (List.getElem_mem hlt)
        exact ⟨grid[r],List.getElem?_eq_getElem hlt,by omega⟩

/-- A range that cannot be read ends the step in a `TypeError`. -/
theorem step_error {f : Failure} (hm : matchFormula (e.expr s) = some m)
    (hv : rangeValues (e.grid s) m = .error f) : step s e = .error .typeError := by
  cases f
  cases e with
  | formula value =>
    change matchFormula value = some m at hm
    change rangeValues s.grid m = _ at hv
    rw [step,handleFormula_singleton,enter,hm]
    simp only [hv]
    rfl
  | setGrid grid =>
    change matchFormula s.formulaGrid.expr = some m at hm
    change rangeValues grid m = _ at hv
    have hne : s.formulaGrid.expr ≠ [] := fun h => by rw [h] at hm; cases hm
    rw [step,evaluateFormulaCell,if_neg hne,hm]
    simp only [hv]
    rfl

/-- A step reads only cells of the grid exactly if both corners of the range lie in it; if they do
not, the step ends in a `TypeError`. -/
theorem step_reads_iff (hgrid : Rectangular (e.grid s)) :
    (ReadsCells s e ↔ Confined s e) ∧ (¬ Confined s e → step s e = .error .typeError) := by
  have hiff : ReadsCells s e ↔ Confined s e :=
    forall_congr' fun m => imp_congr_right fun _ => rangeValues_ok_iff_corners hgrid m
  refine ⟨hiff,fun hout => ?_⟩
  simp only [← hiff,ReadsCells,not_forall] at hout
  obtain ⟨m,hm,hno⟩ := hout
  cases hv : rangeValues (e.grid s) m with
  | ok values => exact absurd ⟨values,hv⟩ hno
  | error f => exact step_error hm hv

/-- A table of two rows under the names, and a formula that counts them. -/
def counted : Sheet := ⟨[[['n']],[['1']],[['2']]],countCell,"",""⟩

/-- The grid that comes with another table has one row less. -/
theorem step_reads_iff_counted :
    (ReadsCells counted (.setGrid [[['n']],[['1']]]) ↔
      Confined counted (.setGrid [[['n']],[['1']]])) ∧
    (¬ Confined counted (.setGrid [[['n']],[['1']]]) →
      step counted (.setGrid [[['n']],[['1']]]) = .error .typeError) :=
  step_reads_iff ⟨1,by decide⟩

/-- The formula is accepted, and evaluated when its second cell is gone; entered once more, it
leaves the grid as well. -/
theorem reads_outside :
    handleFormula counted.grid "" "" [countFormula] = .ok (countCell,"","") ∧
    Rectangular [[['n']],[['1']]] ∧
    ¬ ReadsCells counted (.setGrid [[['n']],[['1']]]) ∧
    step counted (.setGrid [[['n']],[['1']]]) = .error .typeError ∧
    ¬ ReadsCells { counted with grid := [[['n']],[['1']]] } (.formula countFormula) ∧
    step { counted with grid := [[['n']],[['1']]] } (.formula countFormula) =
      .error .typeError := by
  have herror : rangeValues [[['n']],[['1']]] countMatch = .error .typeError := by rfl
  have hmatch : matchFormula countFormula = some countMatch := by rfl
  refine ⟨by rfl,⟨1,by decide⟩,fun h => ?_,by rfl,fun h => ?_,by rfl⟩
  · obtain ⟨values,hvalues⟩ := h countMatch hmatch
    cases herror.symm.trans hvalues
  · obtain ⟨values,hvalues⟩ := h countMatch hmatch
    cases herror.symm.trans hvalues

end ResumePointers.Spreadsheet.FormulaBounds

import ResumePointers.Spreadsheet.Numbers

/-! The formula cell of the spreadsheet (`frontend/src/components/Sheet.jsx`): a formula is
evaluated when it is entered, and once more whenever the grid has changed. A cell of the grid is
the text that `parseFloat` sees of its value. -/
namespace ResumePointers.Spreadsheet

/-- A `TypeError`, which leaves the formula cell as it is. -/
inductive Failure
  | typeError
deriving DecidableEq

abbrev TextGrid := List (List (List Char))

/-- What the formula cell shows: a text, a number, the name of a property made from a number, or
the square root of a number. -/
inductive Answer
  | text (s : String)
  | number (x : Num)
  | name (x : Num)
  | root (x : Num)
deriving DecidableEq

/-- The cell of `formulaGrid`. -/
structure FormulaCell where
  value : Answer
  expr : List Char
deriving DecidableEq

/-- What the parentheses of the regular expression match. -/
structure Match where
  formulaName : String
  address1 : List Char
  address2 : List Char

/-- `[A-Z]+` and what follows it. -/
def matchLetters (s : List Char) : Option (List Char × List Char) :=
  if s.takeWhile isUpper = [] then none else some (s.span isUpper)

/-- `[A-Z]+\d+` and what follows it. -/
def matchAddress (s : List Char) : Option (List Char × List Char) := do
  let (word,s) ← matchLetters s
  let (row,s) := s.span isDigit
  if row = [] then none else some (word ++ row,s)

def matchChar (c : Char) : List Char → Option (List Char)
  | d::s => if d = c then some s else none
  | [] => none

/-- The regular expression for a formula. No two of its parts that follow each other accept the
same character, so no part has to give one back. -/
def matchFormula (value : List Char) : Option Match := do
  let s ← matchChar '=' value
  let (formulaName,s) ← matchLetters s
  let s ← matchChar '(' s
  let (address1,s) ← matchAddress (s.dropWhile isSpace)
  let s ← matchChar ':' (s.dropWhile isSpace)
  let (address2,s) ← matchAddress (s.dropWhile isSpace)
  let s ← matchChar ')' (s.dropWhile isSpace)
  if s = [] then some ⟨String.ofList formulaName,address1,address2⟩ else none

/-- Row and column of an address. -/
def getCoordinates (address : List Char) : Except Failure (ℕ × ℕ) :=
  let (word,row) := address.span isUpper
  if word ≠ [] ∧ row ≠ [] ∧ row.all isDigit then
    .ok (digitsValue row,word.foldl (fun col c => col * 26 + (c.toNat - 64)) 0 - 1)
  else .error .typeError

/-- `parseFloat(grid[r][c].value)`. -/
def cellNumber (grid : TextGrid) (r c : ℕ) : Except Failure Num :=
  match grid[r]? >>= fun row => row[c]? with
  | some cellVal => .ok (parseFloat cellVal)
  | none => .error .typeError

/-- The two loops over the range: its numbers, row by row. -/
def rangeValues (grid : TextGrid) (m : Match) : Except Failure (List Num) := do
  let coord1 ← getCoordinates m.address1
  let coord2 ← getCoordinates m.address2
  let r1 := min coord1.1 coord2.1
  let r2 := max coord1.1 coord2.1
  let c1 := min coord1.2 coord2.2
  let c2 := max coord1.2 coord2.2
  let rows ← (List.range' r1 (r2 + 1 - r1)).mapM fun r =>
    (List.range' c1 (c2 + 1 - c1)).mapM fun c => cellNumber grid r c
  pure (rows.flatten.filter fun num => !num.isNaN)

def sum (values : List Num) : Num := values.foldl Num.add (.fin 0)

/-- `values.length` as a number. -/
def count (values : List Num) : Num := .fin values.length

def mean (values : List Num) : Num := (sum values).div (count values)

/-- `Math.min(...values)`. -/
def minimum (values : List Num) : Num := values.foldl Num.min .posInf

def maximum (values : List Num) : Num := values.foldl Num.max .negInf

/-- An element in arithmetic; `undefined` is made `NaN`. -/
def element (values : List Num) (i : ℕ) : Num := (values[i]?).getD .nan

def median (values : List Num) : Num :=
  let sorted := values.mergeSort fun a b => !b.lt a
  let mid := sorted.length / 2
  if sorted.length % 2 ≠ 0 then element sorted mid
  else ((if mid = 0 then .nan else element sorted (mid - 1)).add (element sorted mid)).div (.fin 2)

/-- Names like 7, which come first and in order among the properties of an object. -/
def isIndex : Num → Bool
  | .fin q => q.den = 1 ∧ 0 ≤ q.num ∧ q.num < 2 ^ 32 - 1
  | _ => false

/-- `Object.keys(freq)`. -/
def keysOf (values : List Num) : List Num :=
  let names := values.eraseDups
  (names.filter isIndex).mergeSort (fun a b => !b.lt a) ++ names.filter fun x => !isIndex x

/-- `Object.keys(freq).reduce(...)` without a first value. -/
def mode (values : List Num) : Except Failure Num :=
  match keysOf values with
  | [] => .error .typeError
  | a::names => .ok (names.foldl (fun a b => if values.count a > values.count b then a else b) a)

def product (values : List Num) : Num := values.foldl Num.mul (.fin 1)

def variance (values : List Num) : Num :=
  let mean := mean values
  (values.foldl (fun (acc val : Num) => acc.add ((val.sub mean).mul (val.sub mean))) (.fin 0)).div
    ((count values).sub (.fin 1))

/-- The formula cell and the message while `handleFormula` goes through the changes. -/
structure Entry where
  ans : Answer
  currentFormula : List Char
  message : String
  messageColor : String

/-- One round of the loop of `handleFormula`. -/
def enter (grid : TextGrid) (value : List Char) (e : Entry) : Except Failure Entry :=
  match matchFormula value with
  | some m => do
    let values ← rangeValues grid m
    if values.length = 0 then
      pure { e with message := "No numeric values in range", messageColor := "red" }
    else if m.formulaName = "SUM" then
      pure { e with currentFormula := value, ans := .number (sum values) }
    else if m.formulaName = "AVG" then
      pure { e with currentFormula := value, ans := .number (mean values) }
    else if m.formulaName = "MIN" then
      pure { e with currentFormula := value, ans := .number (minimum values) }
    else if m.formulaName = "MAX" then
      pure { e with currentFormula := value, ans := .number (maximum values) }
    else if m.formulaName = "COUNT" then
      pure { e with currentFormula := value, ans := .number (count values) }
    else if m.formulaName = "MEDIAN" then
      pure { e with currentFormula := value, ans := .number (median values) }
    else if m.formulaName = "MODE" then
      pure { e with currentFormula := value, ans := .name (← mode values) }
    else if m.formulaName = "PRODUCT" then
      pure { e with currentFormula := value, ans := .number (product values) }
    else if m.formulaName = "STDEV" then
      pure { e with currentFormula := value, ans := .root (variance values) }
    else pure { e with message := "Formula not supported", messageColor := "red" }
  | none => pure { e with message := "Enter correct formula", messageColor := "red" }

/-- `handleFormula`: the cell it sets, the message and its colour; `values` are those of the
changes. -/
def handleFormula (grid : TextGrid) (message messageColor : String) (values : List (List Char)) :
    Except Failure (FormulaCell × String × String) := do
  let e ← values.foldlM (fun e value => enter grid value e)
    ⟨.text "| Enter Formula |",[],message,messageColor⟩
  pure (⟨e.ans,e.currentFormula⟩,e.message,e.messageColor)

/-- `evaluateFormulaCell`. -/
def evaluateFormulaCell (grid : TextGrid) (cell : FormulaCell) : Except Failure FormulaCell :=
  if cell.expr = [] then .ok cell
  else
    match matchFormula cell.expr with
    | some m => do
      let values ← rangeValues grid m
      let ans ←
        if m.formulaName = "SUM" then pure (.number (sum values))
        else if m.formulaName = "AVG" then pure (.number (mean values))
        else if m.formulaName = "MIN" then pure (.number (minimum values))
        else if m.formulaName = "MAX" then pure (.number (maximum values))
        else if m.formulaName = "COUNT" then pure (.number (count values))
        else if m.formulaName = "MEDIAN" then pure (.number (median values))
        else if m.formulaName = "MODE" then do pure (.name (← mode values))
        else if m.formulaName = "PRODUCT" then pure (.number (product values))
        else if m.formulaName = "STDEV" then pure (.root (variance values))
        else pure (.text "")
      pure ⟨ans,cell.expr⟩
    | none => .error .typeError

variable {grid : TextGrid} {value : List Char} {values : List Num} {e e' : Entry} {m : Match}
  {cell : FormulaCell}

/-- The value of one of the nine functions; `none` for another name. -/
def aggregate (formulaName : String) (values : List Num) : Option (Except Failure Answer) :=
  if formulaName = "SUM" then some (.ok (.number (sum values)))
  else if formulaName = "AVG" then some (.ok (.number (mean values)))
  else if formulaName = "MIN" then some (.ok (.number (minimum values)))
  else if formulaName = "MAX" then some (.ok (.number (maximum values)))
  else if formulaName = "COUNT" then some (.ok (.number (count values)))
  else if formulaName = "MEDIAN" then some (.ok (.number (median values)))
  else if formulaName = "MODE" then some ((mode values).map .name)
  else if formulaName = "PRODUCT" then some (.ok (.number (product values)))
  else if formulaName = "STDEV" then some (.ok (.root (variance values)))
  else none

/-- Two choices by one condition are related if both alternatives are. -/
theorem ite_related {α β : Type} {R : α → β → Prop} {p : Prop} [Decidable p] {a b : α} {x y : β}
    (ha : R a x) (hb : R b y) : R (if p then a else b) (if p then x else y) := by
  split
  · exact ha
  · exact hb

/-- Which names there are does not depend on the numbers. -/
theorem aggregate_isSome (name : String) (values values' : List Num) :
    (aggregate name values).isSome = (aggregate name values').isSome := by
  rw [aggregate,aggregate]
  have hstep := @ite_related (Option (Except Failure Answer)) (Option (Except Failure Answer))
    fun a b => a.isSome = b.isSome
  iterate 9 refine hstep rfl ?_
  rfl

theorem enter_eq (hm : matchFormula value = some m) (hv : rangeValues grid m = .ok values)
    (hne : values ≠ []) (e : Entry) : enter grid value e =
      match aggregate m.formulaName values with
      | some a => a.map fun a => { e with currentFormula := value, ans := a }
      | none => .ok { e with message := "Formula not supported", messageColor := "red" } := by
  rw [enter,hm,aggregate]
  simp only [hv,bind,Except.bind,if_neg (fun h => hne (List.length_eq_zero_iff.mp h))]
  have hstep := @ite_related (Except Failure Entry) (Option (Except Failure Answer))
    fun e' a => e' = match a with
      | some a => a.map fun a => { e with currentFormula := value, ans := a }
      | none => .ok { e with message := "Formula not supported", messageColor := "red" }
  iterate 6 refine hstep rfl ?_
  refine hstep ?_ (hstep rfl (hstep rfl rfl))
  cases mode values <;> rfl

theorem enter_nil (hm : matchFormula value = some m) (hv : rangeValues grid m = .ok [])
    (e : Entry) : enter grid value e =
      .ok { e with message := "No numeric values in range", messageColor := "red" } := by
  rw [enter,hm]
  simp only [hv]
  rfl

theorem evaluate_eq (hm : matchFormula cell.expr = some m) (he : cell.expr ≠ [])
    (hv : rangeValues grid m = .ok values) : evaluateFormulaCell grid cell =
      match aggregate m.formulaName values with
      | some a => a.map fun a => ⟨a,cell.expr⟩
      | none => .ok ⟨.text "",cell.expr⟩ := by
  rw [evaluateFormulaCell,if_neg he,hm,aggregate]
  simp only [hv,bind,Except.bind]
  have hstep := @ite_related (Except Failure FormulaCell) (Option (Except Failure Answer))
    fun cell' a => cell' = match a with
      | some a => a.map fun a => ⟨a,cell.expr⟩
      | none => .ok ⟨.text "",cell.expr⟩
  iterate 6 refine hstep rfl ?_
  refine hstep ?_ (hstep rfl (hstep rfl rfl))
  cases mode values <;> rfl

/-- A text that the formula cell keeps as its formula. -/
def Stored (expr : List Char) : Prop :=
  expr = [] ∨ ∃ m, matchFormula expr = some m ∧ (aggregate m.formulaName []).isSome = true

theorem enter_stored (h : enter grid value e = .ok e') (he : Stored e.currentFormula) :
    Stored e'.currentFormula := by
  cases hm : matchFormula value with
  | none =>
    rw [enter,hm] at h
    exact (Except.ok.inj h) ▸ he
  | some m =>
    cases hv : rangeValues grid m with
    | error f =>
      rw [enter,hm] at h
      simp only [hv] at h
      cases h
    | ok values =>
      by_cases hne : values = []
      · subst hne
        rw [enter_nil hm hv] at h
        exact (Except.ok.inj h) ▸ he
      · rw [enter_eq hm hv hne] at h
        cases ha : aggregate m.formulaName values with
        | none =>
          rw [ha] at h
          exact (Except.ok.inj h) ▸ he
        | some a =>
          have hsome : (aggregate m.formulaName []).isSome = true := by
            rw [aggregate_isSome _ _ values,ha]
            rfl
          rw [ha] at h
          cases a with
          | error f => cases h
          | ok a => exact (Except.ok.inj h) ▸ .inr ⟨m,hm,hsome⟩

theorem handleFormula_stored {message messageColor : String} {texts : List (List Char)}
    {out : String × String} (h : handleFormula grid message messageColor texts = .ok (cell,out)) :
    Stored cell.expr := by
  have hloop (texts : List (List Char)) (e e' : Entry) (he : Stored e.currentFormula)
      (h : texts.foldlM (fun e value => enter grid value e) e = .ok e') :
      Stored e'.currentFormula := by
    induction texts generalizing e with
    | nil => exact (Except.ok.inj h) ▸ he
    | cons value texts ih =>
      rw [List.foldlM_cons] at h
      cases hv : enter grid value e with
      | error f => rw [hv] at h; cases h
      | ok e₁ =>
        rw [hv] at h
        exact ih e₁ (enter_stored hv he) h
  rw [handleFormula] at h
  cases hf : texts.foldlM (fun e value => enter grid value e)
      ⟨.text "| Enter Formula |",[],message,messageColor⟩ with
  | error f => rw [hf] at h; cases h
  | ok e =>
    rw [hf] at h
    obtain ⟨rfl,-⟩ := Prod.mk.inj (Except.ok.inj h)
    exact hloop texts _ e (.inl rfl) hf

theorem handleFormula_singleton (grid : TextGrid) (message messageColor : String)
    (value : List Char) : handleFormula grid message messageColor [value] =
      (enter grid value ⟨.text "| Enter Formula |",[],message,messageColor⟩).map fun e =>
        (⟨e.ans,e.currentFormula⟩,e.message,e.messageColor) := by
  rw [handleFormula,List.foldlM_cons]
  cases enter grid value ⟨.text "| Enter Formula |",[],message,messageColor⟩ <;> rfl

theorem mode_ok (hne : values ≠ []) : ∃ x, mode values = .ok x := by
  obtain ⟨v,hv⟩ := List.exists_mem_of_ne_nil values hne
  have hmem : v ∈ keysOf values := by
    simp only [keysOf,List.mem_append,List.mem_mergeSort,List.mem_filter,List.mem_eraseDups]
    cases isIndex v <;> simp [hv]
  rw [mode]
  cases hk : keysOf values with
  | nil => rw [hk] at hmem; cases hmem
  | cons a names => exact ⟨_,rfl⟩

/-- Only the value of `MODE` can fail, and no function has a text for its value. -/
theorem aggregate_cases {name : String} {a : Except Failure Answer}
    (h : aggregate name values = some a) : (∃ x, a = .ok (.number x)) ∨
      (∃ x, a = .ok (.root x)) ∨ a = (mode values).map .name := by
  rw [aggregate] at h
  split_ifs at h
  all_goals
    obtain rfl := Option.some.inj h
    first
      | exact .inl ⟨_,rfl⟩
      | exact .inr (.inl ⟨_,rfl⟩)
      | exact .inr (.inr rfl)

/-- With a number in the range every function has a value. -/
theorem aggregate_ok {name : String} {a : Except Failure Answer} (hne : values ≠ [])
    (h : aggregate name values = some a) : ∃ x, a = .ok x := by
  obtain ⟨x,rfl⟩ | ⟨x,rfl⟩ | rfl := aggregate_cases h
  · exact ⟨_,rfl⟩
  · exact ⟨_,rfl⟩
  · obtain ⟨x,hmode⟩ := mode_ok hne
    exact ⟨.name x,by rw [hmode]; rfl⟩

/-- Without a number no function shows what an empty formula cell shows. -/
theorem aggregate_nil {name : String} {x : Answer} (h : aggregate name [] = some (.ok x)) :
    x ≠ .text "| Enter Formula |" := by
  have hmode : mode [] = .error .typeError := by simp [mode,keysOf]
  obtain ⟨y,hy⟩ | ⟨y,hy⟩ | hy := aggregate_cases h
  · cases hy
    simp
  · cases hy
    simp
  · rw [hmode] at hy
    cases hy

/-- A cell of the range is read as a number. -/
def HasNumber (grid : TextGrid) (m : Match) : Prop :=
  ∃ coord1 coord2 r c num, getCoordinates m.address1 = .ok coord1 ∧
    getCoordinates m.address2 = .ok coord2 ∧
    (min coord1.1 coord2.1 ≤ r ∧ r ≤ max coord1.1 coord2.1) ∧
    (min coord1.2 coord2.2 ≤ c ∧ c ≤ max coord1.2 coord2.2) ∧
    cellNumber grid r c = .ok num ∧ num.isNaN = false

theorem forall₂_of_mapM {α β : Type} {f : α → Except Failure β} {l : List α} {out : List β}
    (h : l.mapM f = .ok out) : List.Forall₂ (fun a b => f a = .ok b) l out := by
  induction l generalizing out with
  | nil =>
    obtain rfl := Except.ok.inj h
    exact .nil
  | cons a l ih =>
    rw [List.mapM_cons] at h
    cases ha : f a with
    | error e => rw [ha] at h; cases h
    | ok y =>
      cases hl : l.mapM f with
      | error e => rw [ha,hl] at h; cases h
      | ok ys =>
        rw [ha,hl] at h
        obtain rfl := Except.ok.inj h
        exact .cons ha (ih hl)

theorem exists_of_forall₂ {α β : Type} {R : α → β → Prop} {l : List α} {out : List β}
    (h : List.Forall₂ R l out) {a : α} (ha : a ∈ l) : ∃ b ∈ out, R a b := by
  induction h with
  | nil => cases ha
  | @cons x y l ys hx _ ih =>
    obtain rfl | ha := List.mem_cons.mp ha
    · exact ⟨y,by simp,hx⟩
    · obtain ⟨b,hb,hab⟩ := ih ha
      exact ⟨b,by simp [hb],hab⟩

theorem mem_of_mapM {α β : Type} {f : α → Except Failure β} {l : List α} {out : List β}
    (h : l.mapM f = .ok out) {b : β} (hb : b ∈ out) : ∃ a ∈ l, f a = .ok b :=
  exists_of_forall₂ (forall₂_of_mapM h).flip hb

theorem ok_of_mapM {α β : Type} {f : α → Except Failure β} {l : List α} {out : List β}
    (h : l.mapM f = .ok out) {a : α} (ha : a ∈ l) : ∃ b ∈ out, f a = .ok b :=
  exists_of_forall₂ (forall₂_of_mapM h) ha

theorem mem_range' {a b i : ℕ} : i ∈ List.range' a (b + 1 - a) ↔ a ≤ i ∧ i ≤ b := by
  rw [List.mem_range'_1]
  omega

theorem rangeValues_ne_nil (hv : rangeValues grid m = .ok values) :
    values ≠ [] ↔ HasNumber grid m := by
  rw [rangeValues] at hv
  cases h₁ : getCoordinates m.address1 with
  | error f => rw [h₁] at hv; cases hv
  | ok coord1 =>
    cases h₂ : getCoordinates m.address2 with
    | error f => rw [h₁,h₂] at hv; cases hv
    | ok coord2 =>
      simp only [h₁,h₂,bind,Except.bind] at hv
      split at hv
      · cases hv
      · rename_i rows hrows
        obtain rfl := Except.ok.inj hv
        have hmem (num : Num) : num ∈ rows.flatten ↔
            ∃ r, (min coord1.1 coord2.1 ≤ r ∧ r ≤ max coord1.1 coord2.1) ∧
              ∃ c, (min coord1.2 coord2.2 ≤ c ∧ c ≤ max coord1.2 coord2.2) ∧
                cellNumber grid r c = .ok num := by
          rw [List.mem_flatten]
          constructor
          · rintro ⟨row,hrow,hnum⟩
            obtain ⟨r,hr,hrow⟩ := mem_of_mapM hrows hrow
            obtain ⟨c,hc,hnum⟩ := mem_of_mapM hrow hnum
            exact ⟨r,mem_range'.mp hr,c,mem_range'.mp hc,hnum⟩
          · rintro ⟨r,hr,c,hc,hnum⟩
            obtain ⟨row,hrow,hcells⟩ := ok_of_mapM hrows (mem_range'.mpr hr)
            obtain ⟨num',hnum',hcell⟩ := ok_of_mapM hcells (mem_range'.mpr hc)
            obtain rfl := Except.ok.inj (hcell.symm.trans hnum)
            exact ⟨row,hrow,hnum'⟩
        rw [ne_eq,List.eq_nil_iff_forall_not_mem,not_forall]
        simp only [not_not,List.mem_filter,hmem,HasNumber,h₁,h₂,Except.ok.injEq]
        constructor
        · rintro ⟨num,⟨r,hr,c,hc,hnum⟩,hnan⟩
          exact ⟨coord1,coord2,r,c,num,rfl,rfl,hr,hc,hnum,by simpa using hnan⟩
        · rintro ⟨_,_,r,c,num,rfl,rfl,hr,hc,hnum,hnan⟩
          exact ⟨num,⟨r,hr,c,hc,hnum⟩,by simpa using hnan⟩

/-- A stored formula is evaluated over a later grid to what its entry there shows, exactly if the
range has a number. -/
theorem evaluate_eq_handle_iff {grid₀ : TextGrid} {message messageColor : String}
    {texts : List (List Char)} {out : String × String}
    (h : handleFormula grid₀ message messageColor texts = .ok (cell,out)) (he : cell.expr ≠ [])
    (hm : matchFormula cell.expr = some m) (hv : rangeValues grid m = .ok values)
    (message' messageColor' : String) :
    (∃ shown entered out', evaluateFormulaCell grid cell = .ok shown ∧
      handleFormula grid message' messageColor' [cell.expr] = .ok (entered,out') ∧
      shown.value = entered.value) ↔ HasNumber grid m := by
  obtain hempty | ⟨m',hm',hsome⟩ := handleFormula_stored h
  · exact absurd hempty he
  obtain rfl := Option.some.inj (hm.symm.trans hm')
  rw [aggregate_isSome _ _ values] at hsome
  obtain ⟨a,ha⟩ := Option.isSome_iff_exists.mp hsome
  rw [handleFormula_singleton,evaluate_eq hm he hv,ha,← rangeValues_ne_nil hv]
  constructor
  · rintro ⟨shown,entered,out',hshown,hentered,hsame⟩ rfl
    rw [enter_nil hm hv] at hentered
    obtain ⟨rfl,-⟩ := Prod.mk.inj (Except.ok.inj hentered)
    cases a with
    | error f => cases hshown
    | ok x =>
      obtain rfl := Except.ok.inj hshown
      exact aggregate_nil ha hsame
  · intro hne
    obtain ⟨x,rfl⟩ := aggregate_ok hne ha
    rw [enter_eq hm hv hne,ha]
    exact ⟨_,_,_,rfl,rfl,rfl⟩

def countFormula : List Char := "=COUNT(A1:A2)".toList

def countMatch : Match := ⟨"COUNT",['A','1'],['A','2']⟩

def countCell : FormulaCell := ⟨.number (.fin 2),countFormula⟩

/-- Two numbers are counted, and later a text and a number. -/
theorem evaluate_eq_handle_iff_count :
    handleFormula [[['n']],[['1']],[['2']]] "" "" [countFormula] = .ok (countCell,"","") ∧
    ((∃ shown entered out', evaluateFormulaCell [[['n']],[['a']],[['3']]] countCell = .ok shown ∧
      handleFormula [[['n']],[['a']],[['3']]] "" "" [countCell.expr] = .ok (entered,out') ∧
      shown.value = entered.value) ↔ HasNumber [[['n']],[['a']],[['3']]] countMatch) :=
  have h : handleFormula [[['n']],[['1']],[['2']]] "" "" [countFormula] =
      .ok (countCell,"","") := by rfl
  ⟨h,evaluate_eq_handle_iff h (by decide) rfl rfl "" ""⟩

/-- When both cells are texts, the evaluation shows 0 and the entry the text of an empty cell. -/
theorem evaluate_without_numbers :
    handleFormula [[['n']],[['1']],[['2']]] "" "" [countFormula] = .ok (countCell,"","") ∧
    evaluateFormulaCell [[['n']],[['a']],[['b']]] countCell =
      .ok ⟨.number (.fin 0),countFormula⟩ ∧
    handleFormula [[['n']],[['a']],[['b']]] "" "" [countCell.expr] =
      .ok (⟨.text "| Enter Formula |",[]⟩,"No numeric values in range","red") :=
  ⟨by rfl,by rfl,by rfl⟩

end ResumePointers.Spreadsheet

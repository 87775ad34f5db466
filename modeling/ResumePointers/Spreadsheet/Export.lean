import Mathlib

/-! The export of a table as comma-separated values (`exportToCSV` of
`frontend/src/components/Sheet.jsx`). The texts of the cells are written as they are, without
quotes, so that a comma or a line break in a cell reads like one between cells. -/
namespace ResumePointers.Spreadsheet.Export

/-- The values of the cells by their texts; `none` is `null` or `undefined`. -/
abbrev ValueGrid := List (List (Option (List Char)))

/-- `Array.prototype.join`, to which `null` and `undefined` are empty. -/
def join (sep : Char) (xs : List (Option (List Char))) : List Char :=
  [sep].intercalate (xs.map fun x => x.getD [])

def fileName (tableName : List Char) : List Char :=
  (if tableName = [] then ['t','a','b','l','e'] else tableName) ++ ['.','c','s','v']

/-- The text that is saved, and the name of the file. -/
def exportToCSV (tableName : List Char) : ValueGrid → Option (List Char × List Char)
  | [] => none
  | headers::rows =>
    let rows := rows.map fun row => row.map fun value => some (value.getD [])
    let csv := join '\n' ((headers::rows).map fun row => some (join ',' row))
    some (csv,fileName tableName)

/-- The texts in the cells, the headers first. -/
def texts (grid : ValueGrid) : List (List (List Char)) := grid.map (List.map fun value => value.getD [])

/-- The text of a table as it stands in the file. -/
def printed (t : List (List (List Char))) : List Char :=
  ['\n'].intercalate (t.map fun row => [','].intercalate row)

/-- A grid of this width with texts of these characters only. -/
def Written (A : Set Char) (width : ℕ) (grid : ValueGrid) : Prop :=
  ∀ row ∈ texts grid, row.length = width ∧ ∀ text ∈ row, ∀ c ∈ text, c ∈ A

variable {A : Set Char} {width : ℕ} {grid grid' : ValueGrid} {name csv file : List Char}
  {row row' : List (List Char)} {t t' : List (List (List Char))} {sep c : Char}

theorem exportToCSV_eq (hne : grid ≠ []) (name : List Char) :
    exportToCSV name grid = some (printed (texts grid),fileName name) := by
  cases grid with
  | nil => exact absurd rfl hne
  | cons headers rows =>
    have hlines : ((headers::rows.map fun row => row.map fun value => some (value.getD [])).map
        fun row => some (join ',' row)).map (fun x => x.getD []) =
        (texts (headers::rows)).map fun row => [','].intercalate row := by
      simp only [texts,List.map_cons,List.map_map,List.cons.injEq]
      refine ⟨rfl,List.map_congr_left fun row _ => ?_⟩
      simp only [Function.comp_apply,join,List.map_map]
      rfl
    rw [printed,← hlines]
    rfl

theorem intercalate_inj (hfree : ∀ text ∈ row, sep ∉ text) (hfree' : ∀ text ∈ row', sep ∉ text)
    (hne : row ≠ []) (hne' : row' ≠ []) (h : [sep].intercalate row = [sep].intercalate row') :
    row = row' := by
  have hsplit := congrArg (List.splitOn sep) h
  rwa [List.splitOn_intercalate sep hfree hne,List.splitOn_intercalate sep hfree' hne'] at hsplit

theorem mem_intercalate (h : c ∈ [sep].intercalate row) : c = sep ∨ ∃ text ∈ row, c ∈ text := by
  induction row with
  | nil => simp at h
  | cons text row ih =>
    cases row with
    | nil => exact .inr ⟨text,by simp,by simpa using h⟩
    | cons next row =>
      rw [List.intercalate_cons_cons,List.mem_append,List.mem_append,List.mem_singleton] at h
      rcases h with (h | h) | h
      · exact .inr ⟨text,by simp,h⟩
      · exact .inl h
      · exact (ih h).imp_right fun ⟨text,htext,hc⟩ => ⟨text,List.mem_cons_of_mem _ htext,hc⟩

/-- The cells of a row can be read back if there is only one or there is no comma in them. -/
theorem row_inj (hA : width = 0 ∨ width = 1 ∨ ',' ∉ A)
    (hrow : row.length = width ∧ ∀ text ∈ row, ∀ c ∈ text, c ∈ A)
    (hrow' : row'.length = width ∧ ∀ text ∈ row', ∀ c ∈ text, c ∈ A)
    (h : [','].intercalate row = [','].intercalate row') : row = row' := by
  obtain ⟨hlen,hmem⟩ := hrow
  obtain ⟨hlen',hmem'⟩ := hrow'
  rcases Nat.eq_zero_or_pos width with rfl | hpos
  · rw [List.length_eq_zero_iff.mp hlen,List.length_eq_zero_iff.mp hlen']
  · rcases hA.resolve_left hpos.ne' with rfl | hA
    · obtain ⟨text,rfl⟩ := List.length_eq_one_iff.mp hlen
      obtain ⟨text',rfl⟩ := List.length_eq_one_iff.mp hlen'
      simpa using h
    · exact intercalate_inj (fun text ht hc => hA (hmem text ht _ hc))
        (fun text ht hc => hA (hmem' text ht _ hc)) (List.ne_nil_of_length_pos (hlen ▸ hpos))
        (List.ne_nil_of_length_pos (hlen' ▸ hpos)) h

/-- No line of the file is broken by its cells. -/
theorem newline_not_mem (hA : width = 0 ∨ '\n' ∉ A)
    (hrow : row.length = width ∧ ∀ text ∈ row, ∀ c ∈ text, c ∈ A) :
    '\n' ∉ [','].intercalate row := by
  intro hc
  rcases hA with rfl | hA
  · rw [List.length_eq_zero_iff.mp hrow.1] at hc
    simp at hc
  · rcases mem_intercalate hc with hcomma | ⟨text,htext,hc⟩
    · exact absurd hcomma (by decide)
    · exact hA (hrow.2 text htext _ hc)

theorem map_inj {f : List (List Char) → List Char}
    (hf : ∀ row ∈ t, ∀ row' ∈ t', f row = f row' → row = row') (h : t.map f = t'.map f) :
    t = t' := by
  induction t generalizing t' with
  | nil => simpa using h.symm
  | cons row t ih =>
    cases t' with
    | nil => simp at h
    | cons row' t' =>
      rw [List.map_cons,List.map_cons,List.cons.injEq] at h
      rw [hf row List.mem_cons_self row' List.mem_cons_self h.1,
        ih (fun row hrow row' hrow' => hf row (List.mem_cons_of_mem _ hrow) row'
          (List.mem_cons_of_mem _ hrow')) h.2]

theorem printed_inj (hA : width = 0 ∨ '\n' ∉ A ∧ (width = 1 ∨ ',' ∉ A)) (hne : t ≠ [])
    (hne' : t' ≠ []) (ht : ∀ row ∈ t, row.length = width ∧ ∀ text ∈ row, ∀ c ∈ text, c ∈ A)
    (ht' : ∀ row ∈ t', row.length = width ∧ ∀ text ∈ row, ∀ c ∈ text, c ∈ A)
    (h : printed t = printed t') : t = t' := by
  have hline : width = 0 ∨ '\n' ∉ A := hA.imp_right And.left
  have hcomma : width = 0 ∨ width = 1 ∨ ',' ∉ A := hA.imp_right And.right
  apply map_inj fun row hrow row' hrow' => row_inj hcomma (ht row hrow) (ht' row' hrow')
  apply intercalate_inj _ _ (by simpa using hne) (by simpa using hne') h
  · intro text htext
    obtain ⟨row,hrow,rfl⟩ := List.mem_map.mp htext
    exact newline_not_mem hline (ht row hrow)
  · intro text htext
    obtain ⟨row,hrow,rfl⟩ := List.mem_map.mp htext
    exact newline_not_mem hline (ht' row hrow)

/-- A text and empty cells after it. -/
theorem intercalate_replicate (text : List Char) (k : ℕ) :
    [','].intercalate (text::List.replicate k []) = text ++ List.replicate k ',' := by
  induction k generalizing text with
  | zero => simp
  | succ k ih => rw [List.replicate_succ,List.intercalate_cons_cons,ih]; simp [List.replicate_succ]

/-- A text and empty cells before it. -/
theorem replicate_intercalate (text : List Char) (k : ℕ) :
    [','].intercalate (List.replicate k [] ++ [text]) = List.replicate k ',' ++ text := by
  induction k with
  | zero => simp
  | succ k ih =>
    rw [List.replicate_succ,List.cons_append,List.intercalate_cons_of_ne_nil (by simp),ih]
    simp [List.replicate_succ]

/-- Two tables that share their text with each other. -/
theorem lost_of_printed (t t' : List (List (List Char)))
    (ht : ∀ row ∈ t, row.length = width ∧ ∀ text ∈ row, ∀ c ∈ text, c ∈ A)
    (ht' : ∀ row ∈ t', row.length = width ∧ ∀ text ∈ row, ∀ c ∈ text, c ∈ A)
    (hne : t ≠ []) (hne' : t' ≠ []) (hdiff : t ≠ t') (h : printed t = printed t') :
    ∃ grid grid' : ValueGrid, Written A width grid ∧ Written A width grid' ∧ grid ≠ [] ∧
      grid' ≠ [] ∧ texts grid ≠ texts grid' ∧ printed (texts grid) = printed (texts grid') := by
  have htexts (t : List (List (List Char))) : texts (t.map (List.map some)) = t := by
    simp [texts,Function.comp_def]
  refine ⟨t.map (List.map some),t'.map (List.map some),?_,?_,by simpa using hne,
    by simpa using hne',?_,?_⟩
  · rw [Written,htexts]
    exact ht
  · rw [Written,htexts]
    exact ht'
  · rwa [htexts,htexts]
  · rwa [htexts,htexts]

theorem comma_lost (hA : ',' ∈ A) (k : ℕ) : ∃ grid grid' : ValueGrid, Written A (k + 2) grid ∧
    Written A (k + 2) grid' ∧ grid ≠ [] ∧ grid' ≠ [] ∧ texts grid ≠ texts grid' ∧
      printed (texts grid) = printed (texts grid') := by
  apply lost_of_printed [[',']::[]::List.replicate k []] [[]::[',']::List.replicate k []]
  · simp +contextual [hA]
  · simp +contextual [hA]
  · simp
  · simp
  · simp
  · have hlast := intercalate_replicate [','] k
    have hfirst := intercalate_replicate [','] (k + 1)
    rw [List.replicate_succ] at hfirst
    simp only [printed,List.map_cons,List.map_nil,List.intercalate_singleton]
    rw [hfirst,List.intercalate_cons_cons,hlast]
    rfl

theorem newline_lost (hA : '\n' ∈ A) (k : ℕ) : ∃ grid grid' : ValueGrid, Written A (k + 1) grid ∧
    Written A (k + 1) grid' ∧ grid ≠ [] ∧ grid' ≠ [] ∧ texts grid ≠ texts grid' ∧
      printed (texts grid) = printed (texts grid') := by
  apply lost_of_printed [List.replicate k [] ++ [['\n']],[]::List.replicate k []]
    [List.replicate k [] ++ [[]],['\n']::List.replicate k []]
  · simp +contextual
    rintro text (⟨-,rfl⟩ | rfl) <;> simp [hA]
  · simp +contextual [hA]
    rintro text (⟨-,rfl⟩ | rfl) <;> simp
  · simp
  · simp
  · simp
  · simp [printed,intercalate_replicate,replicate_intercalate]

/-- The export of tables of one width and with texts of some characters loses nothing if and only
if there is no line break among the characters and, next to another column, no comma. -/
theorem exportToCSV_lossless_iff (A : Set Char) (width : ℕ) (name name' : List Char) :
    (∀ grid grid' csv file file', Written A width grid → Written A width grid' →
      exportToCSV name grid = some (csv,file) → exportToCSV name' grid' = some (csv,file') →
      texts grid = texts grid') ↔ width = 0 ∨ '\n' ∉ A ∧ (width = 1 ∨ ',' ∉ A) := by
  constructor
  · intro h
    have hsame (grid grid' : ValueGrid) (hw : Written A width grid) (hw' : Written A width grid')
        (hne : grid ≠ []) (hne' : grid' ≠ [])
        (hprint : printed (texts grid) = printed (texts grid')) : texts grid = texts grid' :=
      h grid grid' _ _ _ hw hw' (exportToCSV_eq hne name) (hprint ▸ exportToCSV_eq hne' name')
    by_contra hnot
    obtain ⟨k,rfl⟩ := Nat.exists_eq_succ_of_ne_zero fun h0 => hnot (.inl h0)
    by_cases hline : '\n' ∈ A
    · obtain ⟨grid,grid',hw,hw',hne,hne',hdiff,hprint⟩ := newline_lost hline k
      exact hdiff (hsame grid grid' hw hw' hne hne' hprint)
    · have hcomma : ',' ∈ A := by
        by_contra hcomma
        exact hnot (.inr ⟨hline,.inr hcomma⟩)
      have hk : k ≠ 0 := fun h0 => hnot (.inr ⟨hline,.inl (by rw [h0])⟩)
      obtain ⟨j,rfl⟩ := Nat.exists_eq_succ_of_ne_zero hk
      obtain ⟨grid,grid',hw,hw',hne,hne',hdiff,hprint⟩ := comma_lost hcomma j
      exact hdiff (hsame grid grid' hw hw' hne hne' hprint)
  · intro hA grid grid' csv file file' hw hw' hcsv hcsv'
    have hne : grid ≠ [] := by rintro rfl; cases hcsv
    have hne' : grid' ≠ [] := by rintro rfl; cases hcsv'
    rw [exportToCSV_eq hne,Option.some.injEq,Prod.mk.injEq] at hcsv
    rw [exportToCSV_eq hne',Option.some.injEq,Prod.mk.injEq] at hcsv'
    apply printed_inj hA _ _ hw hw' (hcsv.1.trans hcsv'.1.symm)
    · simpa [texts] using hne
    · simpa [texts] using hne'

/-- A comma in a name and one in a place read alike. -/
theorem exportToCSV_lost :
    exportToCSV ['t'] [[some ['a'],some ['b']],[some ['x',',','y'],some ['z']]] =
        exportToCSV ['t'] [[some ['a'],some ['b']],[some ['x'],some ['y',',','z']]] ∧
      texts [[some ['a'],some ['b']],[some ['x',',','y'],some ['z']]] ≠
        texts [[some ['a'],some ['b']],[some ['x'],some ['y',',','z']]] := by
  decide

end ResumePointers.Spreadsheet.Export

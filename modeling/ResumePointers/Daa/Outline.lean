import ResumePointers.Daa.Posters

/-! The outline of the posters (`find_outline` of `DAA/22b0944.cpp`) and the area it encloses. A
run is `none` where it has no exact result. -/
namespace ResumePointers.Daa

def INT_MAX : ℚ := 2147483647

/-- `outline[i]`; an element outside the vector reads as `o`. -/
def element (o : Option Point) (outline : List Point) (i : ℤ) : Option Point :=
  if i < 0 then o else (outline[i.toNat]?).or o

/-- A division by 0 gives an infinity or a NaN, which are no rationals. -/
def quotient (a b : ℚ) : Option ℚ := if b = 0 then none else some (a / b)

def inter (seg1 seg2 : Point × Point) : Option Point := do
  let m1 := if seg1.1.x - seg1.2.x ≠ 0 then (seg1.1.y - seg1.2.y) / (seg1.1.x - seg1.2.x)
    else INT_MAX
  let m2 := if seg2.1.x - seg2.2.x ≠ 0 then (seg2.1.y - seg2.2.y) / (seg2.1.x - seg2.2.x)
    else INT_MAX
  let x ← quotient (seg2.1.y - seg1.1.y + m1 * seg1.1.x - m2 * seg2.1.x) (m1 - m2)
  let y := if m1 ≠ INT_MAX then seg1.1.y + x * m1 - m1 * seg1.1.x
    else seg2.1.y + x * m2 - m2 * seg2.1.x
  pure ⟨x,y⟩

/-- What both halves of the loop do with the two heights: if the upper outline changes, the
intersection is added. -/
def cross (o : Option Point) (outline1 outline2 : List Point) (i j : ℕ) (above : Bool) (y1 y2 : ℚ)
    (outline : List Point) : Option (Bool × List Point) :=
  if above ≠ decide (y1 ≥ y2) then do
    let p ← element o outline1 (i - 1)
    let q ← element o outline1 i
    let s ← element o outline2 j
    let r ← if j ≠ 0 then element o outline2 (j - 1) else pure ⟨s.x,0⟩
    let point ← inter (p,q) (r,s)
    pure (!above,outline ++ [point])
  else pure (above,outline)

/-- The loop's half for a point of `outline2`, up to `j++`. -/
def mergeSecond (o : Option Point) (outline1 outline2 : List Point) (i j : ℕ) (above : Bool)
    (outline : List Point) : Option (Bool × List Point) := do
  let p ← element o outline1 (i - 1)
  let q ← element o outline1 i
  let s ← element o outline2 j
  let rise ← quotient ((q.y - p.y) * (s.x - p.x)) (q.x - p.x)
  let (above,outline) ← cross o outline1 outline2 i j above (p.y + rise) s.y outline
  pure (above,if !above then outline ++ [s] else outline)

/-- The loop's half for a point of `outline1`, up to `i++`. -/
def mergeFirst (o : Option Point) (outline1 outline2 : List Point) (i j : ℕ) (above : Bool)
    (outline : List Point) : Option (Bool × List Point) := do
  let r ← element o outline2 (j - 1)
  let s ← element o outline2 j
  let q ← element o outline1 i
  let rise ← quotient ((s.y - r.y) * (q.x - r.x)) (s.x - r.x)
  let (above,outline) ← cross o outline1 outline2 i j above q.y (r.y + rise) outline
  pure (above,if above then outline ++ [q] else outline)

/-- `outline1[i].X() >= outline2[j].X()`. -/
def isAhead (o : Option Point) (outline1 outline2 : List Point) (i j : ℕ) : Option Bool := do
  let q ← element o outline1 i
  let s ← element o outline2 j
  pure (q.x ≥ s.x)

/-- The loop of `outline_merge` and the two loops after it. -/
def mergeLoop (o : Option Point) (outline1 outline2 : List Point) (i j : ℕ) (ahead above : Bool)
    (outline : List Point) : Option (List Point) :=
  if i < outline1.length ∧ j < outline2.length then
    if ahead then do
      let (above,outline) ← mergeSecond o outline1 outline2 i j above outline
      let ahead ← isAhead o outline1 outline2 i (j + 1)
      mergeLoop o outline1 outline2 i (j + 1) ahead above outline
    else do
      let (above,outline) ← mergeFirst o outline1 outline2 i j above outline
      let ahead ← isAhead o outline1 outline2 (i + 1) j
      mergeLoop o outline1 outline2 (i + 1) j ahead above outline
  else some (outline ++ outline2.drop j ++ outline1.drop i)
termination_by outline1.length - i + (outline2.length - j)

def outline_merge (o : Option Point) (outline1 outline2 : List Point) : Option (List Point) := do
  let start ← element o outline2 0
  let outline := outline1.takeWhile fun p => p.x < start.x
  let i := outline.length
  if i = outline1.length then pure (outline ++ outline2)
  else do
    let p ← element o outline1 (i - 1)
    mergeLoop o outline1 outline2 i 0 true (p.y ≥ 0) outline

/-- The outline of one poster. -/
def trapezium (p : Poster) : List Point :=
  if p.1.y ≠ 0 then
    if p.2.y ≠ 0 then [⟨p.1.x,0⟩,p.1,p.2,⟨p.2.x,0⟩] else [⟨p.1.x,0⟩,p.1,p.2]
  else if p.2.y ≠ 0 then [p.1,p.2,⟨p.2.x,0⟩] else [p.1,p.2]

def find_outline (o : Option Point) (posters : List Poster) (low high : ℕ) :
    Option (List Point) :=
  if low < high then do
    let mid := low + (high - low) / 2
    let a ← find_outline o posters low mid
    let b ← find_outline o posters (mid + 1) high
    outline_merge o a b
  else (posters[low]?).map trapezium
termination_by high - low

/-- The loop of `area_from_outline`. -/
def areaLoop (area : ℚ) : List Point → ℚ
  | p::q::outline =>
    areaLoop (if p.y = 0 ∧ q.y = 0 then area else area + (q.x - p.x) * (1 / 2 * (q.y + p.y)))
      (q::outline)
  | _ => area

def area_from_outline (outline : List Point) : ℚ := areaLoop 0 outline

/-- The area that `main` computes. -/
def area (o : Option Point) (posters : List Poster) : Option ℚ := do
  let n := posters.length
  let outline ← find_outline o (merge_sort posters 0 (n - 1)) 0 (n - 1)
  pure (area_from_outline outline)

/-- Each poster ends before the next ones start. -/
def Apart (posters : List Poster) : Prop := posters.Pairwise fun p q => p.2.x < q.1.x

variable {o : Option Point} {outline1 outline2 outline : List Point} {i j : ℕ} {ahead above : Bool}
  {a b b₁ b₂ c : List Poster} {low high : ℕ}

theorem element_zero (o : Option Point) (p : Point) : element o (p::outline) 0 = some p := rfl

theorem element_none_length : element none outline outline.length = none := by
  rw [element,if_neg (by omega)]
  simp

theorem isAhead_none_right : isAhead none outline1 outline2 i outline2.length = none := by
  rw [isAhead,element_none_length]
  cases element none outline1 i <;> rfl

theorem isAhead_none_left : isAhead none outline1 outline2 outline1.length j = none := by
  rw [isAhead,element_none_length]
  rfl

/-- Once the loop has been entered, its last comparison reads an element outside a vector. -/
theorem mergeLoop_none (hi : i < outline1.length) (hj : j < outline2.length) :
    mergeLoop none outline1 outline2 i j ahead above outline = none := by
  induction hn : outline1.length - i + (outline2.length - j) using Nat.strong_induction_on
    generalizing i j ahead above outline with
  | _ n ih =>
    rw [mergeLoop,if_pos ⟨hi,hj⟩]
    cases ahead with
    | true =>
      rw [if_pos rfl]
      cases mergeSecond none outline1 outline2 i j above outline with
      | none => rfl
      | some r =>
        by_cases hj' : j + 1 < outline2.length
        · cases ha : isAhead none outline1 outline2 i (j + 1) with
          | none => simp
          | some ahead => simpa [ha] using ih _ (by omega) hi hj' rfl
        · have hend : j + 1 = outline2.length := by omega
          simp [hend,isAhead_none_right]
    | false =>
      rw [if_neg (by simp)]
      cases mergeFirst none outline1 outline2 i j above outline with
      | none => rfl
      | some r =>
        by_cases hi' : i + 1 < outline1.length
        · cases ha : isAhead none outline1 outline2 (i + 1) j with
          | none => simp
          | some ahead => simpa [ha] using ih _ (by omega) hi' hj rfl
        · have hend : i + 1 = outline1.length := by omega
          simp [hend,isAhead_none_left]

/-- Only outlines that follow each other are merged without such a read. -/
theorem outline_merge_append (o : Option Point) (q : Point)
    (h : ∀ p ∈ outline1, p.x < q.x) :
    outline_merge o outline1 (q::outline2) = some (outline1 ++ q::outline2) := by
  have hall : outline1.takeWhile (fun p => p.x < q.x) = outline1 :=
    List.takeWhile_eq_self_iff.mpr fun p hp => decide_eq_true (h p hp)
  simp [outline_merge,element_zero,hall]

theorem outline_merge_none (q : Point) (h : ¬ ∀ p ∈ outline1, p.x < q.x) :
    outline_merge none outline1 (q::outline2) = none := by
  have hle := (List.takeWhile_prefix (l := outline1) fun p => decide (p.x < q.x)).length_le
  have hne : (outline1.takeWhile fun p => p.x < q.x).length ≠ outline1.length := by
    intro heq
    have hall := List.IsPrefix.eq_of_length (List.takeWhile_prefix _) heq
    exact h fun p hp => of_decide_eq_true (List.takeWhile_eq_self_iff.mp hall p hp)
  rw [outline_merge,element_zero]
  simp only [Option.bind_eq_bind,Option.bind_some,if_neg hne]
  cases element none outline1 ((outline1.takeWhile fun p => p.x < q.x).length - 1) with
  | none => rfl
  | some p => exact mergeLoop_none (by omega) (by simp)

theorem trapezium_cons (p : Poster) : ∃ outline, trapezium p = ⟨p.1.x,0⟩::outline := by
  rw [trapezium]
  by_cases h : p.1.y = 0
  · have hp : p.1 = ⟨p.1.x,0⟩ := by rw [← h]
    rw [if_neg (by simpa using h),← hp]
    split <;> exact ⟨_,rfl⟩
  · rw [if_pos h]
    split <;> exact ⟨_,rfl⟩

end ResumePointers.Daa

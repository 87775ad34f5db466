import ResumePointers.Daa.Posters

/-! The sorting of the posters (`merge` and `merge_sort` of `DAA/22b0944.cpp`) with its indices. An
access outside a vector has no value. -/
namespace ResumePointers.Daa.InPlace

/-- `v[i]`. -/
def read (v : List Poster) (i : ℤ) : Option Poster := if 0 ≤ i then v[i.toNat]? else none

/-- `v[i] = p`. -/
def write (v : List Poster) (i : ℤ) (p : Poster) : Option (List Poster) :=
  if 0 ≤ i ∧ i < v.length then some (v.set i.toNat p) else none

/-- The vector of `n` elements that a loop copies from index `low` on. -/
def copyOut (posters : List Poster) (low : ℤ) : ℕ → Option (List Poster)
  | 0 => some []
  | n+1 => do
    let p ← read posters low
    let rest ← copyOut posters (low + 1) n
    some (p::rest)

/-- `while (i < n1 && j < n2)`. -/
def mergeLoop (L R : List Poster) (n1 n2 : ℤ) (posters : List Poster) (i j k : ℤ) :
    Option (List Poster × ℤ × ℤ × ℤ) :=
  if i < n1 ∧ j < n2 then do
    let l ← read L i
    let r ← read R j
    if startsBefore l r then
      let posters ← write posters k l
      mergeLoop L R n1 n2 posters (i + 1) j (k + 1)
    else
      let posters ← write posters k r
      mergeLoop L R n1 n2 posters i (j + 1) (k + 1)
  else some (posters,i,j,k)
termination_by (n1 - i).toNat + (n2 - j).toNat

/-- The two loops that copy the remaining elements of `L` and of `R`. -/
def copyRest (S : List Poster) (n : ℤ) (posters : List Poster) (i k : ℤ) :
    Option (List Poster × ℤ) :=
  if i < n then do
    let p ← read S i
    let posters ← write posters k p
    copyRest S n posters (i + 1) (k + 1)
  else some (posters,k)
termination_by (n - i).toNat

/-- What `merge` does behind its main loop. -/
def rest (L R : List Poster) (n1 n2 : ℤ) : List Poster × ℤ × ℤ × ℤ → Option (List Poster)
  | (posters,i,j,k) => do
    let (posters,k) ← copyRest L n1 posters i k
    let (posters,_) ← copyRest R n2 posters j k
    some posters

def merge (posters : List Poster) (low mid high : ℤ) : Option (List Poster) := do
  let n1 := mid - low + 1
  let n2 := high - mid
  let L ← copyOut posters low n1.toNat
  let R ← copyOut posters (mid + 1) n2.toNat
  let loop ← mergeLoop L R n1 n2 posters 0 0 low
  rest L R n1 n2 loop

def merge_sort (posters : List Poster) (low high : ℤ) : Option (List Poster) :=
  if low < high then do
    let mid := low + (high - low) / 2
    let posters ← merge_sort posters low mid
    let posters ← merge_sort posters (mid + 1) high
    merge posters low mid high
  else some posters
termination_by (high - low).toNat

variable {L₁ R₁ L₂ R₂ S₁ S₂ a b b₁ b₂ c x posters : List Poster} {p q : Poster} {i j k n n1 n2 : ℤ}

theorem read_append (hi : i = a.length) : read (a ++ p::b) i = some p := by
  simp [read,hi]

theorem write_append (hi : i = a.length) : write (a ++ q::b) i p = some (a ++ p::b) := by
  simp [write,hi]

theorem copyOut_append (hi : i = a.length) : copyOut (a ++ (b ++ c)) i b.length = some b := by
  induction b generalizing a i with
  | nil => rfl
  | cons p b ih =>
    have hrest : copyOut (a ++ (p::b ++ c)) (i + 1) b.length = some b := by
      have := ih (a := a ++ [p]) (i := i + 1) (by simp [hi])
      rwa [List.append_assoc] at this
    rw [List.length_cons,copyOut,hrest,List.cons_append,read_append hi]
    rfl

theorem copyRest_append (hi : i = S₁.length) (hn : n = S₁.length + S₂.length) (hk : k = a.length)
    (hx : x.length = S₂.length) :
    copyRest (S₁ ++ S₂) n (a ++ (x ++ c)) i k = some (a ++ (S₂ ++ c),k + S₂.length) := by
  induction S₂ generalizing S₁ a x i k with
  | nil =>
    obtain rfl := List.length_eq_zero_iff.mp hx
    rw [copyRest,if_neg (by simp at hn; omega)]
    simp
  | cons p S₂ ih =>
    obtain ⟨q,x,rfl⟩ := List.exists_cons_of_length_eq_add_one hx
    rw [List.length_cons] at hn
    rw [copyRest,if_pos (by push_cast at hn; omega),read_append hi]
    simp only [Option.bind_eq_bind,Option.bind_some,List.cons_append,write_append hk]
    have hrest : copyRest (S₁ ++ [p] ++ S₂) n (a ++ [p] ++ (x ++ c)) (i + 1) (k + 1) =
        some (a ++ [p] ++ (S₂ ++ c),k + 1 + S₂.length) :=
      ih (by simp [hi]) (by simp [hn]; omega) (by simp [hk]) (by simpa using hx)
    simp only [← List.append_cons] at hrest
    rw [hrest,List.length_cons,Nat.cast_add_one,add_assoc,add_comm (1 : ℤ)]

theorem rest_append (hi : i = L₁.length) (hj : j = R₁.length) (hk : k = a.length)
    (hn1 : n1 = L₁.length + L₂.length) (hn2 : n2 = R₁.length + R₂.length)
    (hx : x.length = L₂.length + R₂.length) :
    rest (L₁ ++ L₂) (R₁ ++ R₂) n1 n2 (a ++ (x ++ c),i,j,k) = some (a ++ (L₂ ++ R₂ ++ c)) := by
  obtain ⟨x₁,x₂,rfl,hx₁,hx₂⟩ : ∃ x₁ x₂, x = x₁ ++ x₂ ∧ x₁.length = L₂.length ∧
      x₂.length = R₂.length :=
    ⟨x.take L₂.length,x.drop L₂.length,(List.take_append_drop ..).symm,by simp; omega,by simp; omega⟩
  have hL := copyRest_append hi hn1 hk hx₁ (c := x₂ ++ c)
  have hR := copyRest_append (a := a ++ L₂) (k := k + L₂.length) (c := c) hj hn2 (by simp [hk]) hx₂
  simp only [List.append_assoc] at hL hR ⊢
  simp only [rest,hL,hR,Option.bind_eq_bind,Option.bind_some]

theorem mergeLoop_exit (hi : i = L₁.length) (hj : j = R₁.length) (hk : k = a.length)
    (hn1 : n1 = L₁.length + L₂.length) (hn2 : n2 = R₁.length + R₂.length)
    (hx : x.length = L₂.length + R₂.length) (hend : L₂ = [] ∨ R₂ = []) :
    (mergeLoop (L₁ ++ L₂) (R₁ ++ R₂) n1 n2 (a ++ (x ++ c)) i j k).bind
      (rest (L₁ ++ L₂) (R₁ ++ R₂) n1 n2) = some (a ++ (L₂.merge R₂ startsBefore ++ c)) := by
  have hnot : ¬ (i < n1 ∧ j < n2) := by
    rcases hend with rfl | rfl <;> simp only [List.length_nil] at hn1 hn2 <;> omega
  have hmerge : L₂.merge R₂ startsBefore = L₂ ++ R₂ := by
    rcases hend with rfl | rfl <;> simp
  rw [mergeLoop,if_neg hnot,Option.bind_some,rest_append hi hj hk hn1 hn2 hx,hmerge]

/-- From any state of the main loop on, what is left of `L` and `R` is written merged. -/
theorem mergeLoop_append (hi : i = L₁.length) (hj : j = R₁.length) (hk : k = a.length)
    (hn1 : n1 = L₁.length + L₂.length) (hn2 : n2 = R₁.length + R₂.length)
    (hx : x.length = L₂.length + R₂.length) :
    (mergeLoop (L₁ ++ L₂) (R₁ ++ R₂) n1 n2 (a ++ (x ++ c)) i j k).bind
      (rest (L₁ ++ L₂) (R₁ ++ R₂) n1 n2) = some (a ++ (L₂.merge R₂ startsBefore ++ c)) := by
  induction x generalizing L₁ L₂ R₁ R₂ a i j k with
  | nil =>
    have hL : L₂ = [] := List.length_eq_zero_iff.mp (by simp at hx; omega)
    exact mergeLoop_exit hi hj hk hn1 hn2 hx (.inl hL)
  | cons q x ih =>
    rcases L₂ with - | ⟨l,L₂⟩
    · exact mergeLoop_exit hi hj hk hn1 hn2 hx (.inl rfl)
    rcases R₂ with - | ⟨r,R₂⟩
    · exact mergeLoop_exit hi hj hk hn1 hn2 hx (.inr rfl)
    simp only [List.length_cons] at hn1 hn2 hx
    push_cast at hn1 hn2
    have hstep : i < n1 ∧ j < n2 := by omega
    rw [mergeLoop,if_pos hstep]
    simp only [read_append hi,read_append hj,List.cons_append,write_append hk,
      Option.bind_eq_bind,Option.bind_some]
    split
    · next hle =>
      have hrest : (mergeLoop (L₁ ++ [l] ++ L₂) (R₁ ++ r::R₂) n1 n2 (a ++ [l] ++ (x ++ c)) (i + 1) j
          (k + 1)).bind (rest (L₁ ++ [l] ++ L₂) (R₁ ++ r::R₂) n1 n2) =
          some (a ++ [l] ++ (L₂.merge (r::R₂) startsBefore ++ c)) :=
        ih (by simp [hi]) hj (by simp [hk]) (by simp; omega) (by simp; omega) (by simp; omega)
      simp only [← List.append_cons] at hrest
      rw [List.cons_merge_cons_pos _ _ _ hle]
      exact hrest
    · next hle =>
      have hrest : (mergeLoop (L₁ ++ l::L₂) (R₁ ++ [r] ++ R₂) n1 n2 (a ++ [r] ++ (x ++ c)) i (j + 1)
          (k + 1)).bind (rest (L₁ ++ l::L₂) (R₁ ++ [r] ++ R₂) n1 n2) =
          some (a ++ [r] ++ ((l::L₂).merge R₂ startsBefore ++ c)) :=
        ih hi (by simp [hj]) (by simp [hk]) (by simp; omega) (by simp; omega) (by simp; omega)
      simp only [← List.append_cons] at hrest
      rw [List.cons_merge_cons_neg _ _ _ hle]
      exact hrest

variable {low mid high : ℤ}

theorem merge_append (hlow : low = a.length) (hmid : mid + 1 = a.length + b₁.length)
    (hhigh : high + 1 = a.length + b₁.length + b₂.length) :
    merge (a ++ (b₁ ++ (b₂ ++ c))) low mid high =
      some (a ++ (b₁.merge b₂ startsBefore ++ c)) := by
  have hn1 : mid - low + 1 = b₁.length := by omega
  have hn2 : high - mid = b₂.length := by omega
  have hL : copyOut (a ++ (b₁ ++ (b₂ ++ c))) low b₁.length = some b₁ := copyOut_append hlow
  have hR : copyOut (a ++ b₁ ++ (b₂ ++ c)) (mid + 1) b₂.length = some b₂ :=
    copyOut_append (by simp [hmid])
  have hloop : (mergeLoop ([] ++ b₁) ([] ++ b₂) b₁.length b₂.length (a ++ (b₁ ++ b₂ ++ c)) 0 0 low).bind
      (rest ([] ++ b₁) ([] ++ b₂) b₁.length b₂.length) =
      some (a ++ (b₁.merge b₂ startsBefore ++ c)) :=
    mergeLoop_append rfl rfl hlow (by simp) (by simp) List.length_append
  simp only [List.append_assoc,List.nil_append] at hR hloop
  rw [merge,hn1,hn2]
  simp only [Int.toNat_natCast,hL,hR,Option.bind_eq_bind,Option.bind_some,hloop]

theorem merge_sort_append (hlow : low = a.length) (hhigh : high + 1 = a.length + b.length)
    (hb : b ≠ []) :
    merge_sort (a ++ (b ++ c)) low high = some (a ++ (b.mergeSort startsBefore ++ c)) := by
  induction b, hb using MergeSort.halves_induction generalizing a c low high with
  | single p =>
    rw [List.length_singleton] at hhigh
    rw [merge_sort,if_neg (by omega),List.mergeSort_singleton]
  | append b₁ b₂ hne₁ hne₂ hle hle' ih₁ ih₂ =>
    have hpos₂ := List.length_pos_iff.mpr hne₂
    rw [List.length_append] at hhigh
    have hmid : low + (high - low) / 2 + 1 = a.length + b₁.length := by omega
    have hlen₁ : (b₁.mergeSort startsBefore).length = b₁.length := b₁.length_mergeSort
    have hlen₂ : (b₂.mergeSort startsBefore).length = b₂.length := b₂.length_mergeSort
    have h₁ := ih₁ hlow hmid (c := b₂ ++ c)
    have hmid' : low + (high - low) / 2 + 1 = (a ++ b₁.mergeSort startsBefore).length := by
      simp [hmid]
    have hhigh' : high + 1 = (a ++ b₁.mergeSort startsBefore).length + b₂.length := by
      simp
      omega
    have h₂ := ih₂ hmid' hhigh' (c := c)
    rw [List.append_assoc,List.append_assoc] at h₂
    rw [merge_sort,if_pos (by omega),List.append_assoc,MergeSort.mergeSort_append hpos₂ hle hle']
    simp only [h₁,h₂,Option.bind_eq_bind,Option.bind_some]
    exact merge_append hlow (by simpa using hmid') (by simp; omega)

/-- The entries of a vector from index `low` to index `high`. -/
def entries (v : List Poster) (low high : ℤ) : List Poster :=
  (v.drop low.toNat).take (high + 1 - low).toNat

theorem entries_append (hlow : low = a.length) (hhigh : high + 1 = a.length + b.length) :
    entries (a ++ (b ++ c)) low high = b := by
  have hlen : (high + 1 - low).toNat = b.length := by omega
  rw [entries,hlen,hlow,Int.toNat_natCast,List.drop_left,List.take_left]

theorem exists_append (hlow : 0 ≤ low) (hle : low ≤ high) (hhigh : high < posters.length) :
    ∃ a b c, posters = a ++ (b ++ c) ∧ low = a.length ∧ high + 1 = a.length + b.length ∧ b ≠ [] := by
  refine ⟨posters.take low.toNat,entries posters low high,
    (posters.drop low.toNat).drop (high + 1 - low).toNat,?_,?_,?_,?_⟩
  · rw [entries,List.take_append_drop,List.take_append_drop]
  · rw [List.length_take]
    omega
  · rw [entries,List.length_take,List.length_take,List.length_drop]
    omega
  · apply List.ne_nil_of_length_pos
    rw [entries,List.length_take,List.length_drop]
    omega

/-- The sorting with indices and the one on lists are the same on a range of the vector. -/
theorem merge_sort_eq {low high : ℕ} (h : high < posters.length) :
    merge_sort posters low high = some (Daa.merge_sort posters low high) := by
  rcases lt_or_ge high low with hlt | hle
  · rw [merge_sort,if_neg (by omega),Daa.merge_sort,if_neg (by omega)]
  · obtain ⟨a,b,c,rfl,hlow,hhigh,hb⟩ :=
      exists_append (Int.natCast_nonneg low) (Int.ofNat_le.mpr hle) (Int.ofNat_lt.mpr h)
    have hlow' : a.length = low := by omega
    have hhigh' : a.length + b.length = high + 1 := by omega
    rw [merge_sort_append hlow hhigh hb,Daa.merge_sort_append hlow' hhigh' hb]

/-- A range is sorted by where its posters start, those that start at the same place keep their
order, and the rest of the vector stays. -/
theorem merge_sort_stable (h : low < high → 0 ≤ low ∧ high < posters.length) :
    ∃ sorted, merge_sort posters low high = some sorted ∧ sorted.length = posters.length ∧
      (∀ i : ℕ, i < low ∨ high < i → sorted[i]? = posters[i]?) ∧
      (entries sorted low high).Pairwise (fun p q => p.1.x ≤ q.1.x) ∧
      (entries sorted low high).Perm (entries posters low high) ∧
      ∀ x, (entries sorted low high).filter (fun p => p.1.x = x) =
        (entries posters low high).filter fun p => p.1.x = x := by
  rcases lt_or_ge low high with hlt | hge
  · obtain ⟨hlow,hhigh⟩ := h hlt
    obtain ⟨a,b,c,rfl,hlow,hhigh,hb⟩ := exists_append hlow hlt.le hhigh
    have hsort := b.pairwise_mergeSort startsBefore_trans startsBefore_total
    have hlen : (b.mergeSort startsBefore).length = b.length := b.length_mergeSort
    refine ⟨_,merge_sort_append hlow hhigh hb,by simp,?_,?_⟩
    · rintro i (hi | hi)
      · rw [List.getElem?_append_left (by omega),List.getElem?_append_left (by omega)]
      · rw [List.getElem?_append_right (by omega),List.getElem?_append_right (by omega),
          List.getElem?_append_right (by omega),List.getElem?_append_right (by omega),hlen]
    · rw [entries_append hlow (by rw [hhigh,hlen]),entries_append hlow hhigh]
      refine ⟨hsort.imp fun hpq => of_decide_eq_true hpq,b.mergeSort_perm _,fun x => ?_⟩
      apply MergeSort.filter_mergeSort startsBefore_trans startsBefore_total
      intro p q hp hq
      simp only [decide_eq_true_eq] at hp hq
      simp [startsBefore,hp,hq]
  · have hone : (entries posters low high).length ≤ 1 := by
      rw [entries,List.length_take]
      omega
    rw [merge_sort,if_neg (by omega)]
    refine ⟨posters,rfl,rfl,fun _ _ => rfl,?_,.refl _,fun _ => rfl⟩
    rcases hentries : entries posters low high with - | ⟨p,- | ⟨q,v⟩⟩
    · exact .nil
    · exact List.pairwise_singleton _ _
    · rw [hentries,List.length_cons,List.length_cons] at hone
      omega

/-- Two posters start at the same place, behind one that starts later. -/
def three : List Poster := [(⟨3,1⟩,⟨4,1⟩),(⟨1,1⟩,⟨2,1⟩),(⟨1,2⟩,⟨2,2⟩)]

theorem merge_sort_stable_three : ∃ sorted, merge_sort three 0 2 = some sorted ∧
    (entries sorted 0 2).Pairwise (fun p q => p.1.x ≤ q.1.x) ∧
    (entries sorted 0 2).filter (fun p => p.1.x = 1) = [(⟨1,1⟩,⟨2,1⟩),(⟨1,2⟩,⟨2,2⟩)] := by
  have hrange : (0 : ℤ) < 2 → (0 : ℤ) ≤ 0 ∧ (2 : ℤ) < three.length := fun _ => ⟨le_rfl,by simp [three]⟩
  obtain ⟨sorted,h,-,-,hsort,-,hstable⟩ := merge_sort_stable hrange
  refine ⟨sorted,h,hsort,?_⟩
  rw [hstable 1]
  decide +kernel

end ResumePointers.Daa.InPlace

import ResumePointers.Lib.BinaryHeap
import ResumePointers.Lib.Runs
import Mathlib.Data.Int.Order.Basic
import Mathlib.Data.Multiset.AddSub

/-! The binary heap of `dsa/heap/heap.cpp`, of sizes that are small enough for the indices of
children. `append` is declared in `heap.h`, which is missing, and is a parameter. -/
namespace ResumePointers.Dsa.BinaryHeap

inductive Fault
  | range
  | fuel
deriving DecidableEq

structure Heap where
  store : List ℤ
  sz : ℕ
  swap_count : ℤ

abbrev M := EStateM Fault Heap

/-- `store[i]`; to use an entry behind the first `sz` is an error. -/
def load (i : ℕ) : M ℤ := do
  let h ← get
  match (h.store.take h.sz)[i]? with
  | some x => pure x
  | none => throw .range

def save (i : ℕ) (x : ℤ) : M Unit := do
  let h ← get
  if i < (h.store.take h.sz).length then set { h with store := h.store.set i x } else throw .range

/-- Of a positive index. -/
def parent (i : ℕ) : ℕ := if i % 2 = 0 then (i - 2) / 2 else (i - 1) / 2

def left (i : ℕ) : ℕ := 2 * i + 1

def right (i : ℕ) : ℕ := 2 * i + 2

def swap (i j : ℕ) : M Unit := do
  let temp ← load i
  save i (← load j)
  save j temp

/-- A `swap` with its `swap_count++`. -/
def countedSwap (i j : ℕ) : M Unit := do
  swap i j
  modify fun h => { h with swap_count := h.swap_count + 1 }

/-- The loop of `insert`. -/
def insertLoop : ℕ → ℕ → M Unit
  | 0,_ => throw .fuel
  | fuel + 1,t => do
    if t > 0 then
      if (← load (parent t)) < (← load t) then
        countedSwap (parent t) t
        insertLoop fuel (parent t)

def insert (append : ℤ → Heap → Heap) (v : ℤ) : M Unit := do
  modify (append v)
  let h ← get
  insertLoop h.sz (h.sz - 1)

/-- The `if` of `heapify` for one child; returns the new `largest`. -/
def larger (largest child : ℕ) : M ℕ := do
  if child < (← get).sz then
    if (← load largest) < (← load child) then pure child else pure largest
  else pure largest

def heapifyLoop : ℕ → ℕ → M Unit
  | 0,_ => throw .fuel
  | fuel + 1,i => do
    if (← get).sz = 0 then pure ()
    else
      let largest ← larger i (left i)
      let largest ← larger largest (right i)
      if largest = i then pure ()
      else
        countedSwap largest i
        heapifyLoop fuel largest

def heapify (i : ℕ) : M Unit := do heapifyLoop ((← get).sz + 1) i

def max : M ℤ := load 0

def deleteMax : M Unit := do
  countedSwap 0 ((← get).sz - 1)
  modify fun h => { h with sz := h.sz - 1 }
  heapify 0

inductive Op
  | insert (v : ℤ)
  | deleteMax

def call (append : ℤ → Heap → Heap) : Op → M Unit
  | .insert v => insert append v
  | .deleteMax => deleteMax

/-- `store[0..sz)`. -/
def contents (h : Heap) : Multiset ℤ := (h.store.take h.sz : List ℤ)

/-- What `insert` relies on: `append` puts the value behind the first `sz` entries. -/
structure Appends (append : ℤ → Heap → Heap) : Prop where
  sz : ∀ v h, h.sz ≤ h.store.length → (append v h).sz = h.sz + 1
  store : ∀ v h, h.sz ≤ h.store.length →
    (append v h).store.take (h.sz + 1) = h.store.take h.sz ++ [v]

variable {append : ℤ → Heap → Heap} {h u w : Heap} {i j k t fuel : ℕ}
variable {α : Type} {Q : α → Heap → Prop} {E : Fault → Heap → Prop}

def Heap.entry (h : Heap) (i : ℕ) : ℤ := h.store[i]!

def Heap.exchange (h : Heap) (i j : ℕ) : Heap :=
  { h with store := (h.store.set i (h.entry j)).set j (h.entry i), swap_count := h.swap_count + 1 }

/-- The larger entry of the two. -/
def Heap.larger (h : Heap) (largest child : ℕ) : ℕ :=
  if child < h.sz ∧ h.entry largest < h.entry child then child else largest

theorem entry_eq (h : Heap) (hi : i < h.store.length) : h.store[i]? = some (h.entry i) := by
  rw [Heap.entry,List.getElem?_eq_getElem hi,getElem!_pos h.store i hi]

theorem post_load {Q : ℤ → Heap → Prop} (hs : h.sz ≤ h.store.length) (hi : i < h.sz) :
    Post (load i) h Q E ↔ Q (h.entry i) h := by
  rw [load,post_bind,post_get,List.getElem?_take_of_lt hi,entry_eq h (hi.trans_le hs)]
  rfl

theorem post_countedSwap {Q : Unit → Heap → Prop} (hs : h.sz ≤ h.store.length) (hi : i < h.sz)
    (hj : j < h.sz) : Post (countedSwap i j) h Q E ↔ Q () (h.exchange i j) := by
  have hlen (l : List ℤ) (hl : l.length = h.store.length) {k : ℕ} (hk : k < h.sz) :
      k < (l.take h.sz).length := by
    rw [List.length_take,hl]
    omega
  rw [countedSwap,post_bind,swap,post_bind,post_load hs hi,post_bind,post_load hs hj,post_bind,save,
    post_bind,post_get,if_pos (hlen _ rfl hi),post_set,save,post_bind,post_get]
  dsimp only
  rw [if_pos (hlen _ (List.length_set ..) hj)]
  rfl

theorem post_larger {Q : ℕ → Heap → Prop} (hs : h.sz ≤ h.store.length) (hi : i < h.sz) (j : ℕ) :
    Post (larger i j) h Q E ↔ Q (h.larger i j) h := by
  rw [larger,post_bind,post_get]
  by_cases hj : j < h.sz
  · rw [if_pos hj,post_bind,post_load hs hi,post_bind,post_load hs hj,Heap.larger]
    by_cases hlt : h.entry i < h.entry j
    · rw [if_pos hlt,if_pos ⟨hj,hlt⟩,post_pure]
    · rw [if_neg hlt,if_neg fun hc => hlt hc.2,post_pure]
  · rw [if_neg hj,post_pure,Heap.larger,if_neg fun hc => hj hc.1]

/-- What exchanges of the first `sz` entries leave as it was. -/
structure Permuted (h u : Heap) : Prop where
  sz : u.sz = h.sz
  length : u.store.length = h.store.length
  contents : contents u = contents h
  rest : ∀ i, h.sz ≤ i → u.entry i = h.entry i

theorem Permuted.refl (h : Heap) : Permuted h h := ⟨rfl,rfl,rfl,fun _ _ => rfl⟩

theorem Permuted.trans (h₁ : Permuted h u) (h₂ : Permuted u w) : Permuted h w where
  sz := h₂.sz.trans h₁.sz
  length := h₂.length.trans h₁.length
  contents := h₂.contents.trans h₁.contents
  rest i hi := (h₂.rest i (h₁.sz ▸ hi)).trans (h₁.rest i hi)

theorem Permuted.sized (h₁ : Permuted h u) (hs : h.sz ≤ h.store.length) : u.sz ≤ u.store.length := by
  rw [h₁.sz,h₁.length]
  exact hs

theorem exchange_entry (hi : i < h.store.length) (hj : j < h.store.length) :
    (h.exchange i j).entry = h.entry ∘ Equiv.swap i j := by
  funext k
  simp only [Heap.entry,Heap.exchange,Function.comp_apply,Equiv.swap_apply_def,
    List.getElem!_eq_getElem?_getD,List.getElem?_set,List.length_set]
  grind

theorem exchange_permuted (hs : h.sz ≤ h.store.length) (hi : i < h.sz) (hj : j < h.sz) :
    Permuted h (h.exchange i j) where
  sz := rfl
  length := by simp [Heap.exchange]
  contents := by
    have hi' : i < (h.store.take h.sz).length := by rw [List.length_take]; omega
    have hj' : j < (h.store.take h.sz).length := by rw [List.length_take]; omega
    have hentry {k : ℕ} (hk : k < (h.store.take h.sz).length) : h.entry k = (h.store.take h.sz)[k] := by
      rw [List.length_take] at hk
      rw [Heap.entry,List.getElem_take,getElem!_pos h.store k (by omega)]
    simp only [BinaryHeap.contents,Heap.exchange,List.take_set,Multiset.coe_eq_coe]
    rw [hentry hi',hentry hj']
    exact List.set_set_perm hi' hj'
  rest k hk := by
    rw [exchange_entry (by omega) (by omega),Function.comp_apply,
      Equiv.swap_apply_of_ne_of_ne (by omega) (by omega)]

theorem parent_eq (ht : 0 < t) : parent t = parentIndex t := by
  rw [parent,parentIndex]
  split_ifs <;> omega

/-- `insertLoop` ends, without an error, and has moved its entry up. -/
theorem insertLoop_spec (hs : h.sz ≤ h.store.length) (ht : t < h.sz) (hfuel : t < fuel) :
    Total (insertLoop fuel t) h fun _ u => Permuted h u ∧ u.entry = siftUp h.entry t := by
  induction fuel generalizing h t with
  | zero => omega
  | succ fuel ih =>
    rw [insertLoop,Total,siftUp]
    by_cases hpos : t > 0
    · have hp := parentIndex_lt hpos
      rw [if_pos hpos,parent_eq hpos,post_bind,post_load hs (by omega),post_bind,post_load hs ht]
      by_cases hlt : h.entry (parentIndex t) < h.entry t
      · have hperm := exchange_permuted hs (by omega : parentIndex t < h.sz) ht
        rw [if_pos hlt,if_pos ⟨hpos,hlt⟩,← exchange_entry (by omega) (by omega),post_bind,
          post_countedSwap hs (by omega) ht]
        exact (ih (hperm.sized hs) (by omega : _ < h.sz) (by omega)).imp fun _ u hu =>
          ⟨hperm.trans hu.1,hu.2⟩
      · rw [if_neg hlt,if_neg fun hc => hlt hc.2,post_pure]
        exact ⟨.refl h,rfl⟩
    · rw [if_neg hpos,if_neg fun hc => hpos hc.1,post_pure]
      exact ⟨.refl h,rfl⟩

/-- The largest of an entry and its children. -/
def Heap.largest (h : Heap) (i : ℕ) : ℕ := h.larger (h.larger i (left i)) (right i)

theorem largest_eq (h : Heap) (i : ℕ) : h.largest i =
    if bestChild h.entry h.sz i < h.sz ∧ h.entry i < h.entry (bestChild h.entry h.sz i) then
      bestChild h.entry h.sz i else i := by
  simp only [Heap.largest,Heap.larger,bestChild,left,right]
  grind

theorem larger_lt (hi : i < h.sz) : h.larger i j < h.sz := by
  rw [Heap.larger]
  split
  · next hc => exact hc.1
  · exact hi

/-- `heapifyLoop` ends, without an error, and has moved its entry down. -/
theorem heapifyLoop_spec (hs : h.sz ≤ h.store.length) (hi : i < h.sz ∨ i = 0)
    (hfuel : h.sz < fuel + i) :
    Total (heapifyLoop fuel i) h fun _ u => Permuted h u ∧ u.entry = siftDown h.entry h.sz i := by
  induction fuel generalizing h i with
  | zero => omega
  | succ fuel ih =>
    have hbest := lt_bestChild h.entry h.sz i
    rw [heapifyLoop,Total,post_bind,post_get,siftDown]
    by_cases hzero : h.sz = 0
    · rw [if_pos hzero,if_neg (by omega),post_pure]
      exact ⟨.refl h,rfl⟩
    · have hlt : i < h.sz := by omega
      rw [if_neg hzero,post_bind,post_larger hs hlt,post_bind,post_larger hs (larger_lt hlt),
        ← Heap.largest,largest_eq]
      by_cases hc : bestChild h.entry h.sz i < h.sz ∧ h.entry i < h.entry (bestChild h.entry h.sz i)
      · have hperm := exchange_permuted hs hc.1 hlt
        rw [if_pos hc,if_pos hc,if_neg hbest.ne',← exchange_entry (by omega) (by omega),post_bind,
          post_countedSwap hs hc.1 hlt]
        exact (ih (hperm.sized hs) (.inl hc.1) (by rw [hperm.sz]; omega)).imp fun _ u hu =>
          ⟨hperm.trans hu.1,hu.2⟩
      · rw [if_neg hc,if_neg hc,if_pos rfl,post_pure]
        exact ⟨.refl h,rfl⟩

/-- A heap between two operations. -/
structure Valid (h : Heap) : Prop where
  sized : h.sz ≤ h.store.length
  order : Heaped h.entry h.sz

theorem Permuted.valid (hp : Permuted h u) (hs : h.sz ≤ h.store.length) (ho : Heaped u.entry u.sz) :
    Valid u := ⟨hp.sized hs,ho⟩

theorem insert_spec (happ : Appends append) (h₁ : Valid h) (v : ℤ) :
    Total (insert append v) h fun _ u => Valid u ∧ contents u = v ::ₘ contents h ∧
      u.sz = h.sz + 1 ∧ ∃ g, (∀ i < h.sz, g i = h.entry i) ∧ g h.sz = v ∧
        u.entry = siftUp g h.sz := by
  have hsz := happ.sz v h h₁.sized
  have hstore := happ.store v h h₁.sized
  have hlen : h.sz + 1 ≤ (append v h).store.length := by
    have := congrArg List.length hstore
    rw [List.length_take,List.length_append,List.length_singleton,List.length_take,
      Nat.min_eq_left h₁.sized] at this
    omega
  have hold : ∀ i < h.sz, (append v h).entry i = h.entry i := by
    intro i hi
    have hget := congrArg (·[i]?) hstore
    have hi' : i < (h.store.take h.sz).length := by
      rw [List.length_take]
      have := h₁.sized
      omega
    simp only [List.getElem?_append_left hi',List.getElem?_take_of_lt hi,
      List.getElem?_take_of_lt (Nat.lt_succ_of_lt hi)] at hget
    rw [Heap.entry,Heap.entry,List.getElem!_eq_getElem?_getD,hget,← List.getElem!_eq_getElem?_getD]
  have hnew : (append v h).entry h.sz = v := by
    have hget := congrArg (·[h.sz]?) hstore
    have hlen' : (h.store.take h.sz).length = h.sz := by
      rw [List.length_take,Nat.min_eq_left h₁.sized]
    simp only [List.getElem?_take_of_lt (Nat.lt_succ_self h.sz),
      List.getElem?_append_right hlen'.le,hlen',Nat.sub_self] at hget
    rw [Heap.entry,List.getElem!_eq_getElem?_getD,hget]
    rfl
  have hrising : Rising (append v h).entry (h.sz + 1) h.sz := by
    refine Heaped.rising fun i hi hin => ?_
    have hp := parentIndex_lt hi
    rw [hold i hin,hold _ (hp.trans hin)]
    exact h₁.order i hi hin
  rw [insert,Total,post_bind,post_modify,post_bind,post_get,hsz,Nat.add_sub_cancel]
  refine (insertLoop_spec (hsz ▸ hlen) (by omega) (by omega)).imp fun _ u hu => ?_
  obtain ⟨hperm,hup⟩ := hu
  have hsz' : u.sz = h.sz + 1 := hperm.sz.trans hsz
  refine ⟨hperm.valid (hsz ▸ hlen) ?_,hperm.contents.trans ?_,hsz',_,hold,hnew,hup⟩
  · rw [hup,hsz']
    exact siftUp_heaped hrising (Nat.lt_succ_self _)
  · rw [contents,hsz,hstore,contents,Multiset.cons_coe,Multiset.coe_eq_coe]
    exact List.perm_append_singleton v _

/-- The heap `u` has lost one occurrence of a maximum of `h`, which is behind its entries. -/
structure TakesMax (h u : Heap) : Prop where
  mem : u.entry u.sz ∈ contents h
  max : ∀ x ∈ contents h, x ≤ u.entry u.sz
  contents : contents h = u.entry u.sz ::ₘ contents u
  length : u.sz < u.store.length

theorem contents_succ {n : ℕ} (hn : n < h.store.length) :
    contents { h with sz := n + 1 } = h.entry n ::ₘ contents { h with sz := n } := by
  rw [contents,contents,List.take_succ_eq_append_getElem hn,Multiset.cons_coe,Multiset.coe_eq_coe,
    Heap.entry,getElem!_pos h.store n hn]
  exact List.perm_append_singleton ..

theorem Valid.le_root (h₁ : Valid h) : ∀ x ∈ contents h, x ≤ h.entry 0 := by
  intro x hx
  obtain ⟨i,hi,rfl⟩ := List.mem_iff_getElem.mp (Multiset.mem_coe.mp hx)
  rw [List.length_take] at hi
  have hle := h₁.order.le_root (by omega : i < h.sz)
  rw [Heap.entry,getElem!_pos h.store i (by omega)] at hle
  rwa [List.getElem_take]

theorem deleteMax_spec {n : ℕ} (h₁ : Valid h) (hn : h.sz = n + 1) :
    Total deleteMax h fun _ u => Valid u ∧ TakesMax h u ∧ u.sz = n ∧
      u.entry = siftDown (h.entry ∘ Equiv.swap 0 n) n 0 := by
  have hs := h₁.sized
  have hne : 0 < h.sz := by omega
  have hperm := exchange_permuted hs hne (by omega : n < h.sz)
  have hsink := (hn ▸ h₁.order : Heaped h.entry (n + 1)).sinking
  have hlast : (h.exchange 0 n).entry n = h.entry 0 := by
    rw [exchange_entry (by omega) (by omega),Function.comp_apply,Equiv.swap_apply_right]
  have hlen : n < (h.exchange 0 n).store.length := by
    rw [hperm.length]
    omega
  rw [deleteMax,Total,post_bind,post_get,hn,Nat.add_sub_cancel,post_bind,post_countedSwap hs hne (by omega),
    post_bind,post_modify,hperm.sz,hn,Nat.add_sub_cancel,heapify,post_bind,post_get]
  have hsmall : n ≤ (h.exchange 0 n).store.length := hlen.le
  refine Post.imp (heapifyLoop_spec hsmall (.inr rfl) (Nat.lt_succ_self _)) fun _ u hu => ?_
  obtain ⟨hkept,hdown⟩ := hu
  have hsz : u.sz = n := hkept.sz
  have hmax : u.entry u.sz = h.entry 0 := by
    rw [hsz]
    exact (hkept.rest n (Nat.le_refl n)).trans hlast
  change u.entry = siftDown (h.exchange 0 n).entry n 0 at hdown
  rw [exchange_entry (by omega) (by omega)] at hdown
  have hcontents : contents h = u.entry u.sz ::ₘ contents u := by
    have hsucc := contents_succ hlen
    rw [hlast] at hsucc
    rw [hmax,hkept.contents,← hsucc,← hperm.contents,← hn]
    rfl
  refine ⟨hkept.valid hsmall ?_,⟨?_,?_,hcontents,?_⟩,hsz,hdown⟩
  · rw [hdown,hsz]
    exact siftDown_heaped hsink
  · rw [hcontents]
    exact Multiset.mem_cons_self ..
  · rw [hmax]
    exact h₁.le_root
  · rw [hsz,hkept.length]
    exact hlen

/-- A heap, with the values that have been inserted and those that have been removed. -/
structure Traced where
  heap : Heap
  inserted : Multiset ℤ
  removed : Multiset ℤ

def exec (append : ℤ → Heap → Heap) (op : Op) : EStateM Fault Traced Unit := do
  zoom Traced.heap (fun h s => { s with heap := h }) (call append op)
  modify fun s =>
    match op with
    | .insert v => { s with inserted := v ::ₘ s.inserted }
    | .deleteMax => { s with removed := s.heap.entry s.heap.sz ::ₘ s.removed }

/-- `deleteMax` is called on a heap that is not empty. -/
def Allowed : Op → Traced → Prop
  | .insert _,_ => True
  | .deleteMax,s => 0 < s.heap.sz

structure TracedValid (s : Traced) : Prop where
  heap : Valid s.heap
  balance : contents s.heap + s.removed = s.inserted

variable {s : Traced}

theorem exec_spec (happ : Appends append) (h₁ : TracedValid s) (op : Op) (hok : Allowed op s) :
    Total (exec append op) s fun _ u => TracedValid u ∧ (op = .deleteMax → TakesMax s.heap u.heap) := by
  cases op with
  | insert v =>
    rw [exec,Total,post_bind,post_zoom]
    refine (insert_spec happ h₁.heap v).imp fun _ u hu => ?_
    rw [post_modify]
    refine ⟨⟨hu.1,?_⟩,fun he => absurd he (by simp)⟩
    dsimp only
    rw [hu.2.1,Multiset.cons_add,h₁.balance]
  | deleteMax =>
    obtain ⟨n,hn⟩ : ∃ n, s.heap.sz = n + 1 := Nat.exists_eq_add_one.mpr hok
    rw [exec,Total,post_bind,post_zoom]
    refine (deleteMax_spec h₁.heap hn).imp fun _ u hu => ?_
    obtain ⟨hvalid,htakes,-⟩ := hu
    rw [post_modify]
    refine ⟨⟨hvalid,?_⟩,fun _ => htakes⟩
    dsimp only
    rw [Multiset.add_cons,← Multiset.cons_add,← htakes.contents,h₁.balance]

end ResumePointers.Dsa.BinaryHeap

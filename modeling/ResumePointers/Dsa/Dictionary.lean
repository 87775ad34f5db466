import ResumePointers.Lib.Runs
import Mathlib.Data.Int.Notation
import Mathlib.Data.List.TakeWhile

/-! The dictionary of `dsa/hash_func`: linear probing, where a removed entry gets the key
`TOMBSTONE`. Tables are small enough for the sums of indices. -/
namespace ResumePointers.Dsa.Dictionary

/-- A key, without the final null. -/
abbrev Key := List Char

def tombstone : Key := "TOMBSTONE".toList

structure Entry where
  key : Key
  value : ℤ
deriving DecidableEq

structure Dict where
  N : ℕ
  A : ℕ → Entry

/-- The constructor, for a table of `N` entries. -/
def new (N : ℕ) : Dict := ⟨N,fun _ => ⟨[],0⟩⟩

variable (hashValue : Key → ℕ)

/-- The indices that the loops go through. -/
def probes (key : Key) (N : ℕ) : List ℕ := (List.range N).map fun i => (hashValue key + i) % N

/-- What `findFreeIndex` asks of an entry. -/
def Free (e : Entry) : Prop := e.key = [] ∨ e.key = tombstone

instance (e : Entry) : Decidable (Free e) := inferInstanceAs (Decidable (_ ∨ _))

/-- `none` is -1. -/
def findFreeIndex (key : Key) (d : Dict) : Option ℕ :=
  (probes hashValue key d.N).find? fun index => Free (d.A index)

def getLoop (key : Key) (d : Dict) : List ℕ → Option ℕ
  | [] => none
  | index::rest =>
    if (d.A index).key = [] then none
    else if (d.A index).key = key then some index
    else getLoop key d rest

/-- The index of the entry that `get` returns. -/
def get (key : Key) (d : Dict) : Option ℕ := getLoop key d (probes hashValue key d.N)

/-- `A[index] = e`. -/
def Dict.store (d : Dict) (index : ℕ) (e : Entry) : Dict := { d with A := Function.update d.A index e }

def put (e : Entry) (d : Dict) : Bool × Dict :=
  match findFreeIndex hashValue e.key d with
  | none => (false,d)
  | some freeIndex => (true,d.store freeIndex e)

def remove (key : Key) (d : Dict) : Bool × Dict :=
  match get hashValue key d with
  | none => (false,d)
  | some index => (true,d.store index ⟨tombstone,0⟩)

inductive Op
  | put (e : Entry)
  | remove (key : Key)

/-- A dictionary and the calls it has had with their answers, the last one first. -/
structure Traced where
  dict : Dict
  history : List (Op × Bool)

def call : Op → Dict → Bool × Dict
  | .put e => put hashValue e
  | .remove key => remove hashValue key

def exec (op : Op) : EStateM Unit Traced Bool :=
  modifyGet fun s =>
    let r := call hashValue op s.dict
    (r.1,⟨r.2,(op,r.1)::s.history⟩)

/-- The value of the last successful `put` of the key, if no successful `remove` came later. -/
def latest (key : Key) : List (Op × Bool) → Option ℤ
  | [] => none
  | (.put e,true)::history => if e.key = key then some e.value else latest key history
  | (.remove k,true)::history => if k = key then none else latest key history
  | (_,false)::history => latest key history

/-- The value that `get` finds. -/
def lookup (key : Key) (d : Dict) : Option ℤ := (get hashValue key d).map fun index => (d.A index).value

/-- The slots of a key up to its first empty one. -/
def chain (key : Key) (d : Dict) : List ℕ :=
  (probes hashValue key d.N).takeWhile fun index => (d.A index).key ≠ []

variable {hashValue} {key : Key} {d : Dict} {e : Entry} {N index : ℕ} {s : Traced}

@[simp] theorem store_N (d : Dict) (index : ℕ) (e : Entry) : (d.store index e).N = d.N := rfl

theorem store_A (d : Dict) (index : ℕ) (e : Entry) (j : ℕ) :
    (d.store index e).A j = if j = index then e else d.A j := Function.update_apply ..

theorem lt_of_mem_probes (h : index ∈ probes hashValue key N) : index < N := by
  obtain ⟨i,hi,rfl⟩ := List.mem_map.mp h
  exact Nat.mod_lt _ (Nat.zero_lt_of_lt (List.mem_range.mp hi))

theorem lt_of_mem_chain (h : index ∈ chain hashValue key d) : index < d.N :=
  lt_of_mem_probes (List.takeWhile_subset _ h)

theorem get_eq_find (key : Key) (d : Dict) : get hashValue key d =
    (chain hashValue key d).find? fun index => (d.A index).key = key := by
  rw [get,chain]
  induction probes hashValue key d.N with
  | nil => rfl
  | cons index rest ih =>
    rw [getLoop]
    by_cases hempty : (d.A index).key = []
    · rw [if_pos hempty,List.takeWhile_cons_of_neg (by simp [hempty]),List.find?_nil]
    · rw [if_neg hempty,List.takeWhile_cons_of_pos (by simp [hempty])]
      by_cases hkey : (d.A index).key = key
      · rw [if_pos hkey,List.find?_cons_of_pos (by simp [hkey])]
      · rw [if_neg hkey,List.find?_cons_of_neg (by simp [hkey]),ih]

theorem get_some (h : get hashValue key d = some index) :
    index ∈ chain hashValue key d ∧ (d.A index).key = key := by
  rw [get_eq_find] at h
  have hkey := List.find?_some h
  exact ⟨List.mem_of_find?_eq_some h,of_decide_eq_true hkey⟩

theorem get_none (h : get hashValue key d = none) {j : ℕ} (hj : j ∈ chain hashValue key d) :
    (d.A j).key ≠ key := by
  rw [get_eq_find] at h
  simpa using List.find?_eq_none.mp h j hj

theorem findFreeIndex_some (h : findFreeIndex hashValue key d = some index) :
    index < d.N ∧ Free (d.A index) ∧
      (e.key ≠ [] → index ∈ chain hashValue key (d.store index e)) := by
  obtain ⟨hfree,before,after,heq,hbefore⟩ := List.find?_eq_some_iff_append.mp h
  refine ⟨lt_of_mem_probes (by rw [heq]; simp),of_decide_eq_true hfree,fun he => ?_⟩
  rw [chain,store_N,heq]
  have hall : ∀ j ∈ before ++ [index], decide (((d.store index e).A j).key ≠ []) = true := by
    intro j hj
    rw [store_A]
    split
    · exact decide_eq_true he
    · next hne =>
      have hj' : j ∈ before := by simpa [hne] using hj
      have hnot : ¬ Free (d.A j) := by simpa using hbefore j hj'
      exact decide_eq_true fun hempty => hnot (.inl hempty)
  rw [List.append_cons,List.takeWhile_append_of_pos hall]
  simp

/-- A slot that gets a key does not cut a chain. -/
theorem chain_store (he : e.key ≠ []) {j : ℕ} (hj : j ∈ chain hashValue key d) :
    j ∈ chain hashValue key (d.store index e) := by
  have himp : (fun i => decide ((d.A i).key ≠ []) && decide (((d.store index e).A i).key ≠ [])) =
      fun i => decide ((d.A i).key ≠ []) := by
    funext i
    rw [store_A]
    split
    · rw [decide_eq_true he,Bool.and_true]
    · exact Bool.and_self _
  have htake := List.takeWhile_takeWhile (fun i => decide ((d.A i).key ≠ []))
    (fun i => decide (((d.store index e).A i).key ≠ [])) (probes hashValue key d.N)
  simp only [Bool.decide_and,Bool.decide_eq_true,himp] at htake
  rw [chain,← htake] at hj
  exact List.takeWhile_subset _ hj

/-- A key that is neither of the two markers. -/
def Plain (key : Key) : Prop := key ≠ [] ∧ key ≠ tombstone

/-- The dictionary is the map that its history says, but for the keys that are markers. -/
structure Valid (hashValue : Key → ℕ) (N : ℕ) (s : Traced) : Prop where
  size : s.dict.N = N
  chained : ∀ j < N, Plain (s.dict.A j).key → j ∈ chain hashValue (s.dict.A j).key s.dict
  distinct : ∀ i < N, ∀ j < N, Plain (s.dict.A i).key → (s.dict.A i).key = (s.dict.A j).key → i = j
  holds : ∀ key value, Plain key → (latest key s.history = some value ↔ ∃ j < N, s.dict.A j = ⟨key,value⟩)
  marker : latest tombstone s.history = none

/-- A key that is put is not the marker, and no slot has it yet, or there is no free slot. -/
def Fresh (e : Entry) (d : Dict) : Prop :=
  (∃ j < d.N, Free (d.A j)) → e.key ≠ tombstone ∧ ∀ j < d.N, (d.A j).key ≠ e.key

/-- What is asked of a call. -/
def Proper : Op → Traced → Prop
  | .put e,s => e.key ≠ [] ∧ Fresh e s.dict
  | .remove _,_ => True

theorem new_valid (hashValue : Key → ℕ) (N : ℕ) : Valid hashValue N ⟨new N,[]⟩ where
  size := rfl
  chained := fun _ _ h => absurd rfl h.1
  distinct := fun _ _ _ _ h => absurd rfl h.1
  holds := fun key value hkey => by
    refine ⟨nofun,fun ⟨_,_,h⟩ => ?_⟩
    exact absurd (congrArg Entry.key h).symm hkey.1
  marker := rfl

/-- A stored entry can be found, if its key is a marker or its slot is in the chain of its key. -/
theorem Valid.chained_store (h : Valid hashValue N s) (he : e.key ≠ [])
    (hmem : Plain e.key → index ∈ chain hashValue e.key (s.dict.store index e)) :
    ∀ j < N, Plain ((s.dict.store index e).A j).key →
      j ∈ chain hashValue ((s.dict.store index e).A j).key (s.dict.store index e) := by
  intro j hj hp
  rw [store_A] at hp ⊢
  by_cases hji : j = index
  · rw [if_pos hji] at hp ⊢
    rw [hji]
    exact hmem hp
  · rw [if_neg hji] at hp ⊢
    exact chain_store he (h.chained j hj hp)

/-- A stored entry is the only one of its key, if this is a marker or new. -/
theorem Valid.distinct_store (h : Valid hashValue N s)
    (habsent : Plain e.key → ∀ j < N, (s.dict.A j).key ≠ e.key) :
    ∀ i < N, ∀ j < N, Plain ((s.dict.store index e).A i).key →
      ((s.dict.store index e).A i).key = ((s.dict.store index e).A j).key → i = j := by
  intro i hi j hj hp he
  rw [store_A] at hp
  rw [store_A,store_A] at he
  by_cases hii : i = index
  · rw [if_pos hii] at hp he
    by_cases hji : j = index
    · rw [hii,hji]
    · rw [if_neg hji] at he
      exact absurd he.symm (habsent hp j hj)
  · rw [if_neg hii] at hp he
    by_cases hji : j = index
    · rw [if_pos hji] at he
      exact absurd he (habsent (he ▸ hp) i hi)
    · rw [if_neg hji] at he
      exact h.distinct i hi j hj hp he

/-- Other keys keep their entries. -/
theorem store_eq_iff {j : ℕ} {value : ℤ} (hnew : e.key ≠ key) (hold : (d.A index).key ≠ key) :
    (d.store index e).A j = ⟨key,value⟩ ↔ d.A j = ⟨key,value⟩ := by
  rw [store_A]
  by_cases hji : j = index
  · rw [if_pos hji,hji]
    exact ⟨fun he => absurd (congrArg Entry.key he) hnew,fun he => absurd (congrArg Entry.key he) hold⟩
  · rw [if_neg hji]

theorem Valid.put (h : Valid hashValue N s) (hkey : e.key ≠ []) (hfresh : Fresh e s.dict) :
    Valid hashValue N ⟨(put hashValue e s.dict).2,(.put e,(put hashValue e s.dict).1)::s.history⟩ := by
  rw [Dictionary.put]
  cases hf : findFreeIndex hashValue e.key s.dict with
  | none => exact ⟨h.size,h.chained,h.distinct,h.holds,h.marker⟩
  | some f =>
    obtain ⟨hlt,hfree,hmem⟩ := findFreeIndex_some (e := e) hf
    obtain ⟨hne,habsent⟩ := hfresh ⟨f,hlt,hfree⟩
    rw [h.size] at hlt habsent
    refine ⟨h.size,h.chained_store hkey fun _ => hmem hkey,h.distinct_store fun _ => habsent,
      fun key value hp => ?_,?_⟩
    · rw [latest]
      by_cases hek : e.key = key
      · rw [if_pos hek]
        constructor
        · rintro ⟨rfl⟩
          exact ⟨f,hlt,by rw [store_A,if_pos rfl,← hek]⟩
        · rintro ⟨j,hj,he⟩
          rw [store_A] at he
          split at he
          · rw [he]
          · exact absurd ((congrArg Entry.key he).trans hek.symm) (habsent j hj)
      · have hold : (s.dict.A f).key ≠ key := by
          rintro rfl
          exact hfree.elim hp.1 hp.2
        rw [if_neg hek,h.holds key value hp]
        exact exists_congr fun j => and_congr_right fun _ => (store_eq_iff hek hold).symm
    · rw [latest,if_neg hne]
      exact h.marker

theorem Valid.remove (h : Valid hashValue N s) (key : Key) :
    Valid hashValue N
      ⟨(remove hashValue key s.dict).2,(.remove key,(remove hashValue key s.dict).1)::s.history⟩ := by
  rw [Dictionary.remove]
  cases hg : Dictionary.get hashValue key s.dict with
  | none => exact ⟨h.size,h.chained,h.distinct,h.holds,h.marker⟩
  | some index =>
    obtain ⟨hmem,hat⟩ := get_some hg
    have hlt : index < N := h.size ▸ lt_of_mem_chain hmem
    have htomb : ¬ Plain tombstone := fun hp => hp.2 rfl
    have hne : tombstone ≠ [] := by decide
    refine ⟨h.size,h.chained_store (e := ⟨tombstone,0⟩) hne fun hp => (htomb hp).elim,
      h.distinct_store (e := ⟨tombstone,0⟩) fun hp => (htomb hp).elim,fun k value hp => ?_,?_⟩
    · rw [latest]
      by_cases hk : key = k
      · subst hk
        rw [if_pos rfl]
        refine ⟨nofun,fun ⟨j,hj,he⟩ => ?_⟩
        rw [store_A] at he
        split at he
        · exact absurd (congrArg Entry.key he).symm hp.2
        · next hne =>
          have hjk : (s.dict.A j).key = key := congrArg Entry.key he
          exact absurd (h.distinct j hj index hlt (hjk ▸ hp) (hjk.trans hat.symm)) hne
      · rw [if_neg hk,h.holds k value hp]
        exact exists_congr fun j => and_congr_right fun _ => (store_eq_iff hp.2.symm (hat ▸ hk)).symm
    · rw [latest,h.marker,ite_self]

theorem valid_of_reach (h : Reach (exec hashValue) Proper (fun s => s = ⟨new N,[]⟩) s) :
    Valid hashValue N s := by
  refine h.invariant (fun s hs => hs ▸ new_valid hashValue N) fun op s hv hok => ?_
  cases op with
  | put e => exact hv.put hok.1 hok.2
  | remove key => exact hv.remove key

/-- What the dictionary answers for a key other than the marker. -/
theorem Valid.lookup (h : Valid hashValue N s) (hp : Plain key) :
    lookup hashValue key s.dict = latest key s.history := by
  rw [Dictionary.lookup]
  cases hg : Dictionary.get hashValue key s.dict with
  | none =>
    refine (Option.eq_none_iff_forall_ne_some.mpr fun value hv => ?_).symm
    obtain ⟨j,hj,he⟩ := (h.holds key value hp).mp hv
    have hjk : (s.dict.A j).key = key := congrArg Entry.key he
    exact get_none hg (hjk ▸ h.chained j hj (hjk ▸ hp)) hjk
  | some index =>
    obtain ⟨hmem,hat⟩ := get_some hg
    refine ((h.holds key _ hp).mpr ⟨index,h.size ▸ lt_of_mem_chain hmem,?_⟩).symm
    rw [← hat]

/-- In a run whose puts are all of fresh keys, `get` is the map of the history; the marker itself is
found exactly where a marker is. -/
theorem lookup_eq_latest (h : Reach (exec hashValue) Proper (fun s => s = ⟨new N,[]⟩) s)
    (hkey : key ≠ []) : lookup hashValue key s.dict = latest key s.history ↔
      (key = tombstone → ∀ index ∈ chain hashValue key s.dict, (s.dict.A index).key ≠ tombstone) := by
  have hv := valid_of_reach h
  by_cases htomb : key = tombstone
  · subst htomb
    rw [hv.marker,lookup,Option.map_eq_none_iff]
    refine ⟨fun hg _ _ hj => get_none hg hj,fun hall => ?_⟩
    refine Option.eq_none_iff_forall_ne_some.mpr fun index hg => ?_
    exact hall rfl index (get_some hg).1 (get_some hg).2
  · exact ⟨fun _ he => absurd he htomb,fun _ => hv.lookup ⟨hkey,htomb⟩⟩

/-- Two keys of the same hash value, both found. -/
theorem lookup_collided : ∃ s, Reach (exec fun _ => 0) Proper (fun s => s = ⟨new 2,[]⟩) s ∧
    lookup (fun _ => 0) ['b'] s.dict = some 2 := by
  have ha : Reach (exec fun _ => 0) Proper (fun s => s = ⟨new 2,[]⟩) _ :=
    .step (.put ⟨['a'],1⟩) (.init rfl) ⟨by decide,fun _ => ⟨by decide,by decide⟩⟩ rfl
  have hb : Reach (exec fun _ => 0) Proper (fun s => s = ⟨new 2,[]⟩) _ :=
    .step (.put ⟨['b'],2⟩) ha ⟨by decide,fun _ => ⟨by decide,by decide⟩⟩ rfl
  exact ⟨_,hb,(lookup_eq_latest hb (by decide)).mpr fun he => absurd he (by decide)⟩

/-- A run after which `get` is the map of the history. -/
def IsMap (hashValue : Key → ℕ) (N : ℕ) (ops : List Op) : Prop :=
  ∀ rs s, runOps (exec hashValue) ops ⟨new N,[]⟩ = .ok rs s →
    ∀ key, key ≠ [] → lookup hashValue key s.dict = latest key s.history

/-- What the first put of a key has stored hides the second one until it is removed, and the key of
a removed entry is found. -/
theorem map_fails : ¬ IsMap (fun _ => 0) 2 [.put ⟨['a'],1⟩,.put ⟨['a'],2⟩] ∧
    ¬ IsMap (fun _ => 0) 2 [.put ⟨['a'],1⟩,.put ⟨['a'],2⟩,.remove ['a']] ∧
    ¬ IsMap (fun _ => 0) 2 [.put ⟨['a'],1⟩,.remove ['a']] := by
  refine ⟨fun h => ?_,fun h => ?_,fun h => ?_⟩
  · exact absurd (h _ _ rfl ['a'] (by decide)) (by decide)
  · exact absurd (h _ _ rfl ['a'] (by decide)) (by decide)
  · exact absurd (h _ _ rfl tombstone (by decide)) (by decide)

end ResumePointers.Dsa.Dictionary

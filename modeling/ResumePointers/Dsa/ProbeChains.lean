import ResumePointers.Dsa.Dictionary
import Mathlib.Data.Nat.ModEq

/-! The probe paths of the dictionary: between the hash value of a key and its slot no slot is
empty, whatever was removed on the way. -/
namespace ResumePointers.Dsa.Dictionary

inductive Call
  | put (e : Entry)
  | remove (key : Key)
  | get (key : Key)

variable (hashValue : Key → ℕ)

/-- The slot of the `i`th probe. -/
def slot (key : Key) (N i : ℕ) : ℕ := (hashValue key + i) % N

/-- A call, with whether it succeeds. -/
def serve : Call → EStateM Unit Traced Bool
  | .put e => exec hashValue (.put e)
  | .remove key => exec hashValue (.remove key)
  | .get key => modifyGet fun s => ((get hashValue key s.dict).isSome,s)

instance (key : Key) : Decidable (Plain key) := inferInstanceAs (Decidable (_ ∧ _))

/-- The keys are no markers, and no key is put while it is present. -/
def Allowed : Call → Traced → Prop
  | .put e,s => Plain e.key ∧ latest e.key s.history = none
  | .remove key,_ => Plain key
  | .get key,_ => Plain key

instance (c : Call) (s : Traced) : Decidable (Allowed c s) :=
  match c with
  | .put _ => inferInstanceAs (Decidable (_ ∧ _))
  | .remove key => inferInstanceAs (Decidable (Plain key))
  | .get key => inferInstanceAs (Decidable (Plain key))

/-- A slot that the loops reach before a slot of the key is not empty. -/
def Unbroken (key : Key) (d : Dict) : Prop :=
  ∀ i < d.N, (d.A (slot hashValue key d.N i)).key = key →
    ∀ j < i, (d.A (slot hashValue key d.N j)).key ≠ []

variable {hashValue} {key : Key} {d : Dict} {e : Entry} {N i j index : ℕ} {s : Traced}

theorem slot_inj (hi : i < N) (hj : j < N) (h : slot hashValue key N i = slot hashValue key N j) :
    i = j :=
  Nat.ModEq.eq_of_lt_of_lt (Nat.ModEq.add_left_cancel' (hashValue key) h) hi hj

/-- The loops reach every slot. -/
theorem exists_slot (hashValue : Key → ℕ) (key : Key) (h : index < N) :
    ∃ i < N, slot hashValue key N i = index := by
  have hpos : 0 < N := Nat.zero_lt_of_lt h
  have hlt := Nat.mod_lt (hashValue key) hpos
  refine ⟨(index + (N - hashValue key % N)) % N,Nat.mod_lt _ hpos,?_⟩
  have hsum : hashValue key + (index + (N - hashValue key % N)) =
      index + N * (hashValue key / N + 1) := by
    have := Nat.div_add_mod (hashValue key) N
    rw [Nat.mul_add]
    omega
  rw [slot,Nat.add_mod_mod,hsum,Nat.add_mul_mod_self_left,Nat.mod_eq_of_lt h]

theorem mem_probes : index ∈ probes hashValue key N ↔ index < N := by
  constructor
  · exact lt_of_mem_probes
  · intro h
    obtain ⟨i,hi,rfl⟩ := exists_slot hashValue key h
    exact List.mem_map.mpr ⟨i,List.mem_range.mpr hi,rfl⟩

/-- Up to a slot in the chain of a key no slot is empty. -/
theorem chain_full (hi : i < d.N) (h : slot hashValue key d.N i ∈ chain hashValue key d) :
    ∀ j ≤ i, (d.A (slot hashValue key d.N j)).key ≠ [] := by
  obtain ⟨k,hk,hget⟩ := List.mem_iff_getElem.mp h
  have hpre : chain hashValue key d <+: probes hashValue key d.N := List.takeWhile_prefix _
  have hlen : (chain hashValue key d).length ≤ d.N := by
    have := hpre.length_le
    rwa [probes,List.length_map,List.length_range] at this
  have hat : ∀ m, ∀ hm : m < (chain hashValue key d).length,
      (chain hashValue key d)[m] = slot hashValue key d.N m := by
    intro m hm
    rw [hpre.getElem hm]
    simp [probes,slot]
  have hki : k = i := slot_inj (hk.trans_le hlen) hi ((hat k hk).symm.trans hget)
  intro j hj
  have hjk : j < (chain hashValue key d).length := by omega
  have hmem : slot hashValue key d.N j ∈ chain hashValue key d := hat j hjk ▸ List.getElem_mem hjk
  have hfull := List.mem_takeWhile_imp (p := fun index => decide ((d.A index).key ≠ [])) hmem
  exact of_decide_eq_true hfull

theorem put_false_iff (e : Entry) (d : Dict) :
    (put hashValue e d).1 = false ↔ ∀ j < d.N, (d.A j).key ≠ [] ∧ (d.A j).key ≠ tombstone := by
  have hfree : (put hashValue e d).1 = false ↔ findFreeIndex hashValue e.key d = none := by
    rw [put]
    cases findFreeIndex hashValue e.key d <;> simp
  rw [hfree,findFreeIndex,List.find?_eq_none]
  constructor
  · intro h j hj
    exact not_or.mp fun hfree => h j (mem_probes.mpr hj) (decide_eq_true hfree)
  · intro h j hj hfree
    obtain ⟨hne,htomb⟩ := h j (mem_probes.mp hj)
    exact (of_decide_eq_true hfree).elim hne htomb

/-- No slot holds a key that its history has not. -/
theorem Valid.fresh (h : Valid hashValue N s) (hp : Plain e.key)
    (hnone : latest e.key s.history = none) : Fresh e s.dict := by
  refine fun _ => ⟨hp.2,fun j hj hkey => ?_⟩
  have hsome := (h.holds e.key (s.dict.A j).value hp).mpr ⟨j,h.size ▸ hj,by rw [← hkey]⟩
  rw [hnone] at hsome
  cases hsome

theorem valid_of_served (h : Reach (serve hashValue) Allowed (fun s => s = ⟨new N,[]⟩) s) :
    Valid hashValue N s := by
  refine h.invariant (fun s hs => hs ▸ new_valid hashValue N) fun c s hv hok => ?_
  cases c with
  | put e => exact hv.put hok.1.1 (hv.fresh hok.1 hok.2)
  | remove key => exact hv.remove key
  | get key => exact hv

theorem Valid.unbroken (h : Valid hashValue N s) (hp : Plain key) :
    Unbroken hashValue key s.dict := by
  intro i hi hkey j hj
  have hslot : slot hashValue key s.dict.N i < N := h.size ▸ Nat.mod_lt _ (Nat.zero_lt_of_lt hi)
  have hmem := h.chained _ hslot (hkey.symm ▸ hp)
  rw [hkey] at hmem
  exact chain_full hi hmem j hj.le

/-- After any calls with keys other than the markers, none put while it is present, the probe path
of every key is unbroken, `get` finds exactly the live keys with their values, and `put` fails
exactly if no slot is free. -/
theorem probe_chains (h : Reach (serve hashValue) Allowed (fun s => s = ⟨new N,[]⟩) s) :
    (∀ key, Plain key → Unbroken hashValue key s.dict ∧
      ∀ value, latest key s.history = some value ↔
        ∃ index < N, get hashValue key s.dict = some index ∧ s.dict.A index = ⟨key,value⟩) ∧
    ∀ e : Entry, (put hashValue e s.dict).1 = false ↔
      ∀ j < N, (s.dict.A j).key ≠ [] ∧ (s.dict.A j).key ≠ tombstone := by
  have hv := valid_of_served h
  refine ⟨fun key hp => ⟨hv.unbroken hp,fun value => ?_⟩,fun e => ?_⟩
  · rw [← hv.lookup hp,lookup]
    constructor
    · intro hl
      obtain ⟨index,hg,rfl⟩ := Option.map_eq_some_iff.mp hl
      obtain ⟨hmem,hat⟩ := get_some hg
      exact ⟨index,hv.size ▸ lt_of_mem_chain hmem,hg,by rw [← hat]⟩
    · rintro ⟨index,-,hg,he⟩
      rw [hg,Option.map_some,he]
  · rw [← hv.size]
    exact put_false_iff e s.dict

/-- Three keys of one hash value, where the first two are removed and the place of the first is
taken again: the last one is found. -/
theorem probe_chains_reused : ∃ s : Traced, Unbroken (fun _ => 1) ['c'] s.dict ∧
    ∃ index < 3, get (fun _ => 1) ['c'] s.dict = some index ∧ s.dict.A index = ⟨['c'],3⟩ := by
  have hinit : Reach (serve fun _ => 1) Allowed (fun s => s = ⟨new 3,[]⟩) ⟨new 3,[]⟩ := .init rfl
  have hrun : reaches (serve fun _ => 1) Allowed (fun s => latest ['c'] s.history = some 3)
      [.put ⟨['a'],1⟩,.put ⟨['b'],2⟩,.put ⟨['c'],3⟩,.remove ['a'],.remove ['b'],.put ⟨['d'],4⟩,
        .get ['c']] ⟨new 3,[]⟩ = true := by
    decide +kernel
  obtain ⟨s,hs,hlive⟩ := exists_of_reaches hinit hrun
  have hchains := (probe_chains hs).1 ['c'] (by decide)
  exact ⟨s,hchains.1,(hchains.2 3).mp (of_decide_eq_true hlive)⟩

end ResumePointers.Dsa.Dictionary

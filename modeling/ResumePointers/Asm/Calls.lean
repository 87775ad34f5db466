import ResumePointers.Asm.Convention
import ResumePointers.Asm.HeapRun

/-! The calls that a program makes of the routines of `assembly/vector.asm` and
`assembly/heap.asm`: which of them return with the registers of their caller, and what `delete_v`
leaves. -/
namespace ResumePointers.Asm

variable {A : Type}

/-- What a program relies on besides: what `realloc` returns depends on its arguments and the memory,
and a call for 0 bytes takes no cell but those of the block. -/
structure IsLibc (realloc : Cpu A → Cpu A) (live : A → Word → ℕ → Prop) : Prop
    extends IsRealloc realloc live where
  args : ∀ s t : Cpu A, s.mem = t.mem → s.alloc = t.alloc → s.reg .rdi = t.reg .rdi →
    s.reg .rsi = t.reg .rsi → (realloc s).reg .rax = (realloc t).reg .rax
  zero : ∀ s cap, IsBlock live s (s.reg .rdi) cap → s.reg .rsi = 0 →
    ∀ a, (∀ j < cap, a ≠ slot (s.reg .rdi) j) → (s.mem a).isSome = true →
      ((realloc s).mem a).isSome = true

def Routine.deletes (r : Routine) : Prop := r = .delete_v ∨ r = .delete_h

def Routine.pushes (r : Routine) : Prop := r = .push_v ∨ r = .insert_h

/-- What a routine expects of the vector it is called with: an element to return, and for `heapify` a
node and a number of elements within the capacity. -/
def Callable (s : Cpu A) (cap n : ℕ) : Routine → Prop
  | .pop_v | .get_max | .pop_max => 0 < n
  | .heapify => ∃ i m, s.reg .rdx = .ofNat 64 i ∧ s.reg .rsi = .ofNat 64 m ∧ i < cap ∧ m ≤ cap
  | _ => True

/-- The vector at `v`, whose elements were at `base`, is deleted: `frees` counts the calls of `free`
for a block. -/
structure Deleted (frees : A → Word → ℕ) (s u : Cpu A) (v base : Word) : Prop where
  capacity : u.mem v = some 0
  size : u.mem (v + 8) = some 0
  address : u.mem (v + 16) = some 0
  freed : base ≠ 0 → frees u.alloc base = frees s.alloc base + 1

variable {realloc : Cpu A → Cpu A} {live : A → Word → ℕ → Prop} {frees : A → Word → ℕ}
  {s u : Cpu A} {v base : Word} {cap n : ℕ} {f : ℕ → Word} {r : Routine}

theorem IsVector.found (h : IsVector live (s.reg .rdi) s base cap n f) : Found s :=
  ⟨h.pointer,base,h.address⟩

theorem deleted_iff (h : IsVector live v s base cap n f) (hm : u.mem = s.mem) :
    Deleted frees s u v base ↔ base = 0 := by
  constructor
  · intro hd
    have haddr := hd.address
    rw [hm,h.address] at haddr
    exact Option.some_injective _ haddr
  · rintro rfl
    have hcap : cap = 0 := by
      obtain ⟨-,hcap⟩ | ⟨hne,-⟩ := h.block
      · exact hcap
      · exact absurd rfl hne
    have hn : n = 0 := Nat.le_zero.mp (h.sized.trans hcap.le)
    subst hcap hn
    exact ⟨by rw [hm]; exact h.capacity,by rw [hm]; exact h.size,by rw [hm]; exact h.address,
      fun hne => absurd rfl hne⟩

theorem delete_h_kept (h : Found s) :
    Total delete_h s fun _ u => Restored s u ∧ u.mem = s.mem := by
  refine post_function ?_
  rw [post_bind,post_push,post_bind,post_delete_v (by exact h)]
  refine Iff.mpr (post_pop rfl) ?_
  exact ⟨rfl,rfl,⟨rfl,rfl,rfl,rfl,rfl,rfl,rfl⟩,rfl⟩

theorem element_address_spec (h : IsVector live (s.reg .rdi) s base cap n f) :
    Total element_address s fun _ t =>
      t.stack = s.stack ∧ t.rbp = s.rbp ∧ t.reg .rax = s.reg .rsi * 8 + base := by
  simp only [element_address,Total,post_bind,post_push,post_reg,post_mov,onStack_reg]
  refine Iff.mpr (post_load h.pointer (by exact h.address)) ?_
  simp only [set_reg,onStack_reg,reduceCtorEq,↓reduceIte]
  refine Iff.mpr (post_pop rfl) ?_
  refine Iff.mpr (post_pop rfl) ?_
  exact ⟨rfl,rfl,rfl⟩

theorem get_element_v_spec (h : IsVector live (s.reg .rdi) s base cap n f) :
    Total get_element_v s fun _ u => u.reg .rax = s.reg .rsi * 8 + base := by
  refine (post_enter pushedOnly).mpr ?_
  rw [post_bind]
  refine Post.imp (element_address_spec (h.congr rfl rfl)) fun _ t ht => ?_
  obtain ⟨hstack,hrbp,hrax⟩ := ht
  exact (post_leave s.reg [] hstack hrbp).mpr hrax

/-- `resize_v` returns, whatever the capacity it is called with. -/
theorem resize_v_returns (hr : IsLibc realloc live)
    (h : IsVector live (s.reg .rdi) s base cap n f) :
    Total (resize_v realloc) s fun _ _ => True := by
  refine (resize_v_call hr.toIsRealloc rfl h.pointer h.address fun q hq => ?_).imp fun _ _ _ => trivial
  obtain ⟨c,hc,hsmall⟩ : ∃ c, s.reg .rsi * 8 = .ofNat 64 c * 8 ∧ 8 * c < 2 ^ 64 := by
    refine ⟨(s.reg .rsi).toNat % 2 ^ 61,?_,by omega⟩
    have height : (8 : Word).toNat = 8 := rfl
    refine BitVec.eq_of_toNat_eq ?_
    rw [BitVec.toNat_mul,BitVec.toNat_mul,BitVec.toNat_ofNat,height]
    omega
  rw [hc] at hq
  obtain rfl | hpos := Nat.eq_zero_or_pos c
  · have hkept := hr.zero q cap (hq.rdi ▸ (h.of_asked hq).block) hq.rsi
    rw [hq.rdi,hq.mem] at hkept
    have hapart := h.apart
    exact ⟨hkept _ (fun j hj he => (hapart j hj).1 he.symm) (by rw [h.capacity]; rfl),
      hkept _ (fun j hj he => (hapart j hj).2.2 he.symm) (by rw [h.address]; rfl)⟩
  · rw [h.fields hr.toIsRealloc hq hpos hsmall (.inl rfl),
      h.fields hr.toIsRealloc hq hpos hsmall (.inr (.inr rfl)),h.capacity,h.address]
    exact ⟨rfl,rfl⟩

/-- A call of a routine that neither deletes nor pushes returns. -/
theorem returns_code (hr : IsLibc realloc live) (h : IsVector live (s.reg .rdi) s base cap n f)
    (hc : Callable s cap n r) (hd : ¬ r.deletes) (hp : ¬ r.pushes) :
    Total (r.code realloc) s fun _ _ => True := by
  have hsome {a : Word} {w : Word} (ha : s.mem a = some w) : (s.mem a).isSome = true := by
    rw [ha]
    rfl
  have hinit := And.intro (hsome h.capacity) (And.intro (hsome h.size) (hsome h.address))
  cases r with
  | init_v => exact (init_v_spec rfl h.pointer hinit.1 hinit.2.1 hinit.2.2).imp fun _ _ _ => trivial
  | delete_v => exact absurd (.inl rfl) hd
  | resize_v => exact resize_v_returns hr h
  | get_element_v => exact (get_element_v_spec h).imp fun _ _ _ => trivial
  | push_v => exact absurd (.inl rfl) hp
  | pop_v =>
    obtain ⟨n,rfl⟩ := Nat.exists_eq_add_one.mpr hc
    exact (pop_v_spec h rfl).imp fun _ _ _ => trivial
  | size_v => exact (size_v_spec h rfl).imp fun _ _ _ => trivial
  | init_h => exact (init_h_spec rfl h.pointer hinit.1 hinit.2.1 hinit.2.2).imp fun _ _ _ => trivial
  | delete_h => exact absurd (.inr rfl) hd
  | size_h => exact (size_h_spec h rfl).imp fun _ _ _ => trivial
  | insert_h => exact absurd (.inr rfl) hp
  | get_max => exact (get_max_spec h rfl hc).imp fun _ _ _ => trivial
  | pop_max =>
    obtain ⟨n,rfl⟩ := Nat.exists_eq_add_one.mpr hc
    exact (pop_max_spec h rfl).imp fun _ _ _ => trivial
  | heapify =>
    obtain ⟨i,m,hrdx,hrsi,hi,hm⟩ := hc
    have hsmall := h.small
    have hlen : (s.reg .rsi).toNat = m := by
      rw [hrsi,BitVec.toNat_ofNat,Nat.mod_eq_of_lt (by omega)]
    change Total (reg .rsi >>= fun w => heapify (w.toNat + 1)) s _
    rw [Total,post_bind,post_reg]
    exact (heapify_spec h rfl hrsi hrdx hi hm (by omega) (by omega)).imp fun _ _ _ => trivial
  | heapsort => exact post_function ⟨rfl,rfl,trivial⟩

/-- A call of `push_v` or `insert_h` returns unless it needs a block that `realloc` has not got. -/
theorem returns_push_iff (hr : IsLibc realloc live) (h : IsVector live (s.reg .rdi) s base cap n f)
    (hp : r.pushes) : (Total (r.code realloc) s fun _ _ => True) ↔
      (n = cap → ∀ q, Asked s q base (.ofNat 64 (2 * n + 1) * 8) → (realloc q).reg .rax ≠ 0) := by
  have hpost : Post (r.code realloc) s
      (fun _ _ => n = cap → ∃ q, Asked s q base (.ofNat 64 (2 * n + 1) * 8) ∧ (realloc q).reg .rax ≠ 0)
      fun _ _ => n = cap ∧ ∃ q, Asked s q base (.ofNat 64 (2 * n + 1) * 8) ∧ (realloc q).reg .rax = 0 := by
    obtain rfl | rfl := hp
    · exact (push_v_spec hr.toIsRealloc h rfl rfl).mono (fun _ _ hu => hu.2.2) fun _ _ he => he.2
    · exact (insert_h_spec hr.toIsRealloc h rfl rfl).mono (fun _ _ hu => hu.2) fun _ _ he => he.2
  constructor
  · intro ht hfull q hq
    have hserved := Post.const ((ht.and_post hpost).mono (fun _ _ hu => hu.2) fun _ _ he => he.elim)
    obtain ⟨q',hq',hne⟩ := hserved hfull
    rwa [hr.args q q' (hq.mem.trans hq'.mem.symm) (hq.alloc.trans hq'.alloc.symm)
      (hq.rdi.trans hq'.rdi.symm) (hq.rsi.trans hq'.rsi.symm)]
  · intro hserved
    refine hpost.mono (fun _ _ _ => trivial) fun _ _ he => ?_
    obtain ⟨hfull,q,hq,hzero⟩ := he
    exact hserved hfull q hq hzero

theorem Routine.not_pushes (hd : r.deletes) : ¬ r.pushes := by
  rintro (rfl | rfl)
  · obtain h | h := hd <;> cases h
  · obtain h | h := hd <;> cases h

/-- `delete_v` and `delete_h` free nothing and write nothing. -/
theorem deletes_iff (h : IsVector live (s.reg .rdi) s base cap n f) (hd : r.deletes) :
    (Total (r.code realloc) s fun _ u =>
      Restored s u ∧ (r.deletes → Deleted frees s u (s.reg .rdi) base)) ↔
        (r = .delete_v → Alike s) ∧ base = 0 := by
  obtain rfl | rfl := hd
  · refine (post_delete_v h.found).trans (and_congr ?_ ?_)
    · rw [restored_slid,forall_prop_of_true rfl]
    · rw [forall_prop_of_true (.inl rfl)]
      exact deleted_iff h rfl
  · constructor
    · intro ht
      obtain ⟨_,u,hrun,-,hdel⟩ := ht.exists_ok
      obtain ⟨-,hmem⟩ := (delete_h_kept h.found).of_ok hrun
      exact ⟨(fun hc => by cases hc),(deleted_iff h hmem).mp (hdel (.inr rfl))⟩
    · intro hbase
      refine (delete_h_kept h.found).imp fun _ u hu => ⟨hu.1,fun _ => ?_⟩
      exact (deleted_iff h hu.2).mpr hbase.2

/-- A call of a routine, in whatever state, that returns has restored the registers, but for `delete_v`
only if they are alike. Called with a vector, a routine returns with the registers restored, and the
two that delete with the vector deleted, exactly if: for `delete_v` the registers are alike, the vector
to delete has no block yet, and a push into a full vector gets a block from `realloc`. -/
theorem calling_convention (hr : IsLibc realloc live) (frees : A → Word → ℕ) (r : Routine)
    (s : Cpu A) :
    ((Post (r.code realloc) s (fun _ u => Restored s u) fun e _ => e ≠ .stack) ↔
      (r = .delete_v → Found s → Alike s)) ∧
    (∀ base cap n f, IsVector live (s.reg .rdi) s base cap n f → Callable s cap n r →
      ((Total (r.code realloc) s fun _ u =>
          Restored s u ∧ (r.deletes → Deleted frees s u (s.reg .rdi) base)) ↔
        (r = .delete_v → Alike s) ∧ (r.deletes → base = 0) ∧ (r.pushes → n = cap →
          ∀ q, Asked s q base (.ofNat 64 (2 * n + 1) * 8) → (realloc q).reg .rax ≠ 0))) ∧
    (r = .init_v ∨ r = .init_h → s.reg .rdi ≠ 0 → (s.mem (s.reg .rdi)).isSome = true →
      (s.mem (s.reg .rdi + 8)).isSome = true → (s.mem (s.reg .rdi + 16)).isSome = true →
      Total (r.code realloc) s fun _ u => Restored s u) := by
  refine ⟨restored_iff hr.toIsRealloc r,fun base cap n f h hc => ?_,fun hinit hne h₁ h₂ h₃ => ?_⟩
  · by_cases hd : r.deletes
    · rw [deletes_iff h hd]
      exact and_congr_right fun _ =>
        ⟨fun hbase => ⟨fun _ => hbase,fun hp => absurd hp (r.not_pushes hd)⟩,fun hbase => hbase.1 hd⟩
    · have hne : r ≠ .delete_v := fun he => hd (.inl he)
      have := restores_code hr.toIsRealloc hne
      have hreturns : (Total (r.code realloc) s fun _ u =>
          Restored s u ∧ (r.deletes → Deleted frees s u (s.reg .rdi) base)) ↔
            Total (r.code realloc) s fun _ _ => True :=
        ⟨fun ht => ht.imp fun _ _ _ => trivial,fun ht => (ht.and_post (Restores.post s)).imp
          fun _ _ hu => ⟨hu.2,fun hc => absurd hc hd⟩⟩
      rw [hreturns]
      by_cases hp : r.pushes
      · rw [returns_push_iff hr h hp]
        exact ⟨fun hserved => ⟨fun he => absurd he hne,fun hc => absurd hc hd,fun _ => hserved⟩,
          fun hc => hc.2.2 hp⟩
      · exact iff_of_true (returns_code hr h hc hd hp)
          ⟨fun he => absurd he hne,fun hc => absurd hc hd,fun hc => absurd hc hp⟩
  · obtain rfl | rfl := hinit
    · exact ((init_v_spec rfl hne h₁ h₂ h₃).and_post (Restores.post s)).imp fun _ _ hu => hu.2
    · exact ((init_h_spec rfl hne h₁ h₂ h₃).and_post (Restores.post s)).imp fun _ _ hu => hu.2

theorem isLibc_inPlace : IsLibc inPlace isLive where
  toIsRealloc := isRealloc_inPlace
  args s t hmem halloc hrdi hrsi := by
    unfold inPlace
    rw [hmem,halloc,hrdi,hrsi]
    dsimp only
    split <;> rfl
  zero s cap hblock hrsi a hne hsome := by
    unfold inPlace
    dsimp only
    split
    · change (ite _ _ _ : Option Word).isSome = true
      split
      · rfl
      · exact hsome
    · exact hsome

/-- The heap after `init_h` has no block yet: `delete_h` is right for it, and `insert_h` gets one. -/
theorem calling_convention_empty : ∃ c : Cpu ℕ, init_h beforeInit = .ok () c ∧
    (Total (Routine.delete_h.code inPlace) c fun _ u =>
      Restored c u ∧ Deleted (fun _ _ => 0) c u 64 0) ∧
    Total (Routine.insert_h.code inPlace) c fun _ u => Restored c u := by
  obtain ⟨_,c,hrun,hp⟩ := exists_of_returns (m := init_h) (s := beforeInit)
    (p := fun _ c => c.reg .rdi = 64 ∧ c.mem (slot 4096 0) = none) (by decide +kernel)
  obtain ⟨hrdi,hfree⟩ := of_decide_eq_true hp
  have hvec : IsVector isLive (c.reg .rdi) c 0 0 0 fun _ => 0 := by
    rw [hrdi]
    exact (init_h_spec rfl (by decide) rfl rfl rfl).of_ok hrun isLive
  have hgets : ∀ q, Asked c q 0 (.ofNat 64 (2 * 0 + 1) * 8) → (inPlace q).reg .rax ≠ 0 := by
    intro q hq
    have hfits : ∀ i < 1, q.mem (slot 4096 i) = none ∨ q.reg .rdi = 4096 ∧ i < q.alloc := by
      intro i hi
      obtain rfl := Nat.lt_one_iff.mp hi
      exact .inl (hq.mem ▸ hfree)
    rw [inPlace,hq.rsi]
    dsimp only
    rw [if_pos ⟨by decide,hfits⟩]
    exact show (4096 : Word) ≠ 0 by decide
  refine ⟨c,hrun,?_,?_⟩
  · refine Post.imp ((calling_convention isLibc_inPlace (fun _ _ => 0) .delete_h c).2.1 0 0 0 _ hvec
      trivial |>.mpr ⟨(fun he => by cases he),fun _ => rfl,fun hp => ?_⟩) fun _ u hu => ?_
    · exact absurd hp (Routine.not_pushes (.inr rfl))
    · exact ⟨hu.1,hrdi ▸ hu.2 (.inr rfl)⟩
  · refine Post.imp ((calling_convention isLibc_inPlace (fun _ _ => 0) .insert_h c).2.1 0 0 0 _ hvec
      trivial |>.mpr ⟨(fun he => by cases he),fun hd => ?_,fun _ _ => hgets⟩) fun _ u hu => hu.1
    exact absurd (.inr rfl) (Routine.not_pushes hd)

/-- A vector with one element, 7, in a block at address 4096. -/
def oneElement : Cpu ℕ where
  reg r := if r = .rdi then 64 else if r = .rcx then 1 else 0
  rbp := 0
  stack := []
  mem a := if a = 64 ∨ a = 72 then some 1 else if a = 80 then some 4096 else
    if a = 4096 then some 7 else none
  alloc := 1

/-- `delete_v` gives the caller its `rcx` for its `rbx`, and neither frees nor resets anything. -/
theorem delete_v_skips : IsVector isLive 64 oneElement 4096 1 1 (fun _ => 7) ∧
    (¬ Total (Routine.delete_v.code inPlace) oneElement fun _ u => Restored oneElement u) ∧
    ∃ u, delete_h oneElement = .ok () u ∧ u.alloc = oneElement.alloc ∧ u.mem (64 + 8) = some 1 ∧
      u.mem (64 + 16) = some 4096 := by
  have hvec : IsVector isLive 64 oneElement 4096 1 1 (fun _ => 7) := {
    pointer := by decide
    capacity := rfl
    size := rfl
    address := rfl
    block := .inr ⟨by decide,⟨rfl,rfl⟩,by decide⟩
    small := by norm_num
    sized := le_rfl
    cells := by decide
    apart := by decide }
  refine ⟨hvec,fun ht => ?_,_,rfl,rfl,rfl,rfl⟩
  have halike := restored_slid.mp ((post_delete_v (IsVector.found hvec)).mp ht)
  exact absurd halike.1 (by decide)

end ResumePointers.Asm

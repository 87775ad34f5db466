import ResumePointers.Cow.Distinct
import ResumePointers.Cow.Refinement
import ResumePointers.Cow.Shortage

/-! `copyout` writes through the kernel's own mapping, so it never takes the write fault that
splits a shared page: whoever maps the frame sees the bytes. -/
namespace ResumePointers.Cow

open Xv6 Kernel

theorem translate_page {d : PageDir} {a b : ℕ} (h : pageOf a = pageOf b) (write : Bool) :
    translate d a write = translate d b write := by
  rw [Xv6.translate,Xv6.translate,walkpgdir,walkpgdir,PDX_eq,PTX_eq,PDX_eq,PTX_eq,h]

variable {d : PageDir} {p : List UInt8} {va n m : ℕ} {k k₁ k' : Kmem}

/-- The first `n` bytes of `p` have been written where `d` maps the addresses from `va` on. -/
structure Copied (d : PageDir) (va : ℕ) (p : List UInt8) (k k' : Kmem) (n : ℕ) : Prop where
  len : n ≤ p.length
  user : ∀ i < n, (translate d (va + i) false).isSome
  new : ∀ i < n, ∀ f, translate d (va + i) false = some f →
    p[i]? = some (k'.bytes f ((va + i) % PGSIZE))
  old : ∀ f o, (∀ i < n, translate d (va + i) false = some f → (va + i) % PGSIZE ≠ o) →
    k'.bytes f o = k.bytes f o

theorem Copied.refl (d : PageDir) (va : ℕ) (p : List UInt8) (k : Kmem) : Copied d va p k k 0 :=
  ⟨Nat.zero_le _,fun _ hi => by omega,fun _ hi => by omega,fun _ _ _ => rfl⟩

theorem uva2ka_spec (d : PageDir) (uva : ℕ) (k : Kmem) :
    Post (uva2ka d uva) k
      (fun r k' => k' = k ∧ d.hasTable (pageOf uva) ∧ r = translate d uva false)
      fun e _ => e = .nullDeref ∧ ¬ d.hasTable (pageOf uva) := by
  unfold uva2ka
  cases hw : walkpgdir d uva with
  | none => exact ⟨rfl,walkpgdir_eq_none.mp hw⟩
  | some x =>
    have ht := (walkpgdir_eq_some.mp hw).1
    cases x with
    | none => exact ⟨rfl,ht,by rw [Xv6.translate,hw]⟩
    | some pte =>
      refine ⟨rfl,ht,?_⟩
      rw [Xv6.translate,hw]
      simp

variable [KernelImage]

/-- Two user addresses of one byte of memory are the same. -/
theorem translate_inj {a b : ℕ} {f : Frame} (hk : KernelHalf d) (hd : Distinct d)
    (ha : translate d a false = some f) (hb : translate d b false = some f)
    (ho : a % PGSIZE = b % PGSIZE) : a = b := by
  obtain ⟨x,hx,hxu,-,rfl⟩ := translate_eq_some.mp ha
  obtain ⟨y,hy,hyu,-,hxy⟩ := translate_eq_some.mp hb
  have hpage := hd _ (user_page hk hx hxu) _ (user_page hk hy hyu) x y hx hy hxy
  rw [← Nat.div_add_mod a PGSIZE,← Nat.div_add_mod b PGSIZE,ho]
  exact congrArg (PGSIZE * · + _) hpage

/-- Two pieces one behind the other. -/
theorem Copied.append (hk : KernelHalf d) (hd : Distinct d) (h : Copied d va p k k₁ n)
    (h' : Copied d (va + n) (p.drop n) k₁ k' m) : Copied d va p k k' (n + m) where
  len := by
    have h1 := h.len
    have h2 := h'.len
    rw [List.length_drop] at h2
    omega
  user i hi := by
    by_cases hin : i < n
    · exact h.user i hin
    · have := h'.user (i - n) (by omega)
      rwa [Nat.add_assoc,Nat.add_sub_cancel' (by omega)] at this
  new i hi f hf := by
    by_cases hin : i < n
    · rw [h.new i hin f hf,h'.old f _ fun j hj hfj ho => ?_]
      have := translate_inj hk hd hf hfj ho.symm
      omega
    · have hadd : va + n + (i - n) = va + i := by omega
      have := h'.new (i - n) (by omega) f (by rw [hadd]; exact hf)
      rwa [List.getElem?_drop,Nat.add_sub_cancel' (by omega),hadd] at this
  old f o hno := by
    rw [h'.old f o fun j hj hfj => ?_,h.old f o fun i hi => hno i (by omega)]
    have := hno (n + j) (by omega)
    rw [← Nat.add_assoc] at this
    exact this hfj

/-- One piece within a page. -/
theorem copied_page {f : Frame} (hf : translate d va false = some f)
    (hn : va % PGSIZE + n ≤ PGSIZE) (hp : n ≤ p.length) :
    Copied d va p k (setPage f (overwrite (page k f) (va % PGSIZE) (p.take n)) k) n := by
  have hlen : (p.take n).length = n := by rw [List.length_take]; omega
  have hpage : ∀ i < n, pageOf (va + i) = pageOf va := fun i hi => by
    simp only [pageOf,PGSIZE] at hn ⊢; omega
  have hoff : ∀ i < n, (va + i) % PGSIZE = va % PGSIZE + i := fun i hi => by
    simp only [PGSIZE] at hn ⊢; omega
  have htr : ∀ i < n, translate d (va + i) false = some f := fun i hi => by
    rw [translate_page (hpage i hi),hf]
  have hbytes : ∀ g o, (setPage f (overwrite (page k f) (va % PGSIZE) (p.take n)) k).bytes g o =
      if g = f then overwrite (page k f) (va % PGSIZE) (p.take n) o else k.bytes g o :=
    fun g o => by
      change Function.update k.bytes f _ g o = _
      rw [Function.update_apply]
      split <;> rfl
  refine ⟨hp,fun i hi => by rw [htr i hi]; rfl,fun i hi g hg => ?_,fun g o hno => ?_⟩
  · obtain rfl : f = g := Option.some.inj ((htr i hi).symm.trans hg)
    rw [hbytes,if_pos rfl,hoff i hi,overwrite,if_pos (by omega),Nat.add_sub_cancel_left,
      List.getD_eq_getElem?_getD,List.getElem?_take_of_lt hi,List.getElem?_eq_getElem (by omega)]
    rfl
  · rw [hbytes]
    split
    · rename_i hg
      subst hg
      rw [overwrite,if_neg]
      · rfl
      · intro hin
        have hi : o - va % PGSIZE < n := by omega
        refine hno _ hi (htr _ hi) ?_
        rw [hoff _ hi]; omega
    · rfl

/-- `copyout` writes up to the first page that is no user page, and follows a null pointer if
that one has no page table. -/
theorem copyout_spec (hk : KernelHalf d) (hd : Distinct d) :
    Post (copyout d va p) k
      (fun ok k' => ∃ n, Copied d va p k k' n ∧ (ok = true → n = p.length) ∧
        (ok = false → n < p.length ∧ translate d (va + n) false = none ∧
          d.hasTable (pageOf (va + n))))
      fun e _ => e = .nullDeref ∧ ∃ n < p.length,
        (∀ i < n, (translate d (va + i) false).isSome) ∧ ¬ d.hasTable (pageOf (va + n)) := by
  induction hl : p.length using Nat.strong_induction_on generalizing p va k with
  | h l ih =>
    rw [copyout]
    split
    · rename_i hnil
      subst hnil
      exact ⟨0,.refl d va [] k,fun _ => hl,fun hf => by cases hf⟩
    · rename_i hne
      have hlpos : 0 < p.length := List.length_pos_of_ne_nil hne
      have hdown : pageOf (PGROUNDDOWN va) = pageOf va := by
        simp only [pageOf,PGROUNDDOWN,PGSIZE]; omega
      simp only [post_bind]
      refine (uva2ka_spec d (PGROUNDDOWN va) k).mono ?_ ?_
      · rintro r k₁ ⟨rfl,ht,rfl⟩
        rw [translate_page hdown]
        rw [hdown] at ht
        cases hf : translate d va false with
        | none =>
          exact ⟨0,.refl d va p k₁,fun hb => (by cases hb),fun _ => ⟨by omega,hf,ht⟩⟩
        | some f =>
          have hm : va % PGSIZE < PGSIZE := Nat.mod_lt _ (by decide)
          have hpage := copied_page (k := k₁) (p := p) (n := min (PGSIZE - va % PGSIZE) p.length)
            hf (by omega) (by omega)
          simp only [memmoveInto,post_bind,post_modify]
          generalize hn : min (PGSIZE - va % PGSIZE) p.length = n at hpage ⊢
          by_cases hlast : p.length ≤ n
          · have hnil : p.drop n = [] := List.drop_eq_nil_of_le hlast
            rw [hnil,copyout,dif_pos rfl]
            have hall : n = p.length := by omega
            exact ⟨n,hpage,fun _ => hall ▸ hl,fun hb => by cases hb⟩
          · obtain ⟨pte,hget,hu,-⟩ := translate_eq_some.mp hf
            have huser := user_page hk hget hu
            have hnext : uint (PGROUNDDOWN va + PGSIZE) = va + n := by
              have hadd : PGROUNDDOWN va + PGSIZE = va + n := by
                simp only [PGROUNDDOWN,PGSIZE] at hn ⊢; omega
              rw [← Nat.cast_add,hadd]
              refine uint_of_lt ?_
              simp only [pageOf,USERPAGES,KERNBASE,PGSIZE] at huser hn
              omega
            have hdrop : (p.drop n).length = p.length - n := List.length_drop
            rw [hnext]
            refine (ih (p.length - n) (by omega) hdrop).mono ?_ ?_
            · rintro ok k' ⟨m,hc,hok,hbad⟩
              refine ⟨n + m,hpage.append hk hd hc,fun hb => ?_,fun hb => ?_⟩
              · have := hok hb
                omega
              · obtain ⟨hlt,hnone,htab⟩ := hbad hb
                rw [Nat.add_assoc] at hnone htab
                exact ⟨by omega,hnone,htab⟩
            · rintro e - ⟨rfl,m,hm,huser,htab⟩
              refine ⟨rfl,n + m,by omega,fun i hi => ?_,by rwa [← Nat.add_assoc]⟩
              by_cases hin : i < n
              · exact hpage.user i hin
              · have := huser (i - n) (by omega)
                rwa [Nat.add_assoc,Nat.add_sub_cancel' (by omega)] at this
      · rintro e - ⟨rfl,ht⟩
        rw [hdown] at ht
        exact ⟨rfl,0,by omega,fun i hi => by omega,ht⟩

variable {M : Finset Frame} {s t : Kernel Kmem} {q : Slot} {out : List Frame}

/-- `copyout` into the address space of `q` does not stop; if it returns 0, the process reads `p`
at `va` and what it read elsewhere, and no other process reads anything new. -/
def CopiesOut (s : Kernel Kmem) (q : Slot) (d : PageDir) (va : ℕ) (p : List UInt8) : Prop :=
  ∃ ok k, copyout d va p s.mem = .ok ok k ∧
    (ok = true → ∀ w, peek { s with mem := k } q w =
      if va ≤ w ∧ w < va + p.length then p[w - va]? else peek s q w) ∧
    ∀ q' ≠ q, ∀ w, peek { s with mem := k } q' w = peek s q' w

/-- A process other than `q` maps `f` where it may read. -/
def Seen (s : Kernel Kmem) (q : Slot) (f : Frame) : Prop :=
  ∃ q' ≠ q, (s.proc q').live ∧ ∃ d v pte, (s.proc q').pgdir = some d ∧ d.get v = some pte ∧
    pte.u = true ∧ pte.frame = f

/-- Of the addresses from `va` on, up to the first one that is not the user's, each has a page
table and a frame that nobody else maps, or one that holds the byte already. -/
structure CopySafe (s : Kernel Kmem) (q : Slot) (d : PageDir) (va : ℕ) (p : List UInt8) :
    Prop where
  table : ∀ i < p.length, (∀ j < i, (translate d (va + j) false).isSome) →
    d.hasTable (pageOf (va + i))
  alone : ∀ i f b, (∀ j < i, (translate d (va + j) false).isSome) →
    translate d (va + i) false = some f → p[i]? = some b → Seen s q f →
      s.mem.bytes f ((va + i) % PGSIZE) = b

omit [KernelImage] in
theorem peek_some {w : ℕ} {f : Frame} (hl : (s.proc q).live) (hd : (s.proc q).pgdir = some d)
    (hf : translate d w false = some f) : peek s q w = some (s.mem.bytes f (w % PGSIZE)) := by
  rw [peek,if_pos hl,hd,Option.bind_some,hf,Option.map_some]

omit [KernelImage] in
/-- A process reads what it read, if no byte that it maps has changed. -/
theorem peek_mem_congr (q : Slot) (w : ℕ)
    (hb : (s.proc q).live → ∀ d f, (s.proc q).pgdir = some d → translate d w false = some f →
      k.bytes f (w % PGSIZE) = s.mem.bytes f (w % PGSIZE)) :
    peek { s with mem := k } q w = peek s q w := by
  unfold peek
  dsimp only
  split
  · rename_i hl
    cases hd : (s.proc q).pgdir with
    | none => rfl
    | some d =>
      rw [Option.bind_some,Option.bind_some]
      cases hf : translate d w false with
      | none => rfl
      | some f => rw [Option.map_some,Option.map_some,hb hl d f hd hf]
  · rfl

omit [KernelImage] in
/-- The first address that `copyout` cannot write bounds those that it can. -/
theorem copied_lt {i : ℕ} {ok : Bool} (hok : ok = true → n = p.length)
    (hbad : ok = false → n < p.length ∧ translate d (va + n) false = none ∧
      d.hasTable (pageOf (va + n)))
    (hi : i < p.length) (huser : ∀ j ≤ i, (translate d (va + j) false).isSome) : i < n := by
  by_contra hge
  cases ok with
  | true => have := hok rfl; omega
  | false =>
    have := huser n (by omega)
    rw [(hbad rfl).2.1] at this
    cases this

theorem safe_of_copies (h : CopiesOut s q d va p) (hk : KernelHalf d) (hx : Distinct d) :
    CopySafe s q d va p := by
  obtain ⟨ok,k,hrun,-,hothers⟩ := h
  obtain ⟨n,hc,hok,hbad⟩ := (copyout_spec hk hx).of_ok hrun
  constructor
  · intro i hi huser
    by_cases hin : i < n
    · obtain ⟨f,hf⟩ := Option.isSome_iff_exists.mp (hc.user i hin)
      obtain ⟨pte,hget,-⟩ := translate_eq_some.mp hf
      exact hasTable_of_get hget
    · cases ok with
      | true => have := hok rfl; omega
      | false =>
        obtain ⟨-,hnone,htab⟩ := hbad rfl
        by_cases hin' : i = n
        · rwa [hin']
        · have := huser n (by omega)
          rw [hnone] at this
          cases this
  · rintro i f b huser hf hb ⟨q',hq',hl',d',v,pte,hd',hget,hu,rfl⟩
    have hi : i < p.length := (List.getElem?_eq_some_iff.mp hb).1
    have hin : i < n := copied_lt hok hbad hi fun j hj => by
      by_cases hji : j = i
      · rw [hji,hf]; rfl
      · exact huser j (by omega)
    -- the same byte, at the address where the other process has it
    have hm : (va + i) % PGSIZE < PGSIZE := Nat.mod_lt _ (by decide)
    have hpage : pageOf (v * PGSIZE + (va + i) % PGSIZE) = v := by
      simp only [pageOf,PGSIZE] at hm ⊢; omega
    have hoff : (v * PGSIZE + (va + i) % PGSIZE) % PGSIZE = (va + i) % PGSIZE := by
      simp only [PGSIZE]; omega
    have hf' : translate d' (v * PGSIZE + (va + i) % PGSIZE) false = some pte.frame :=
      translate_eq_some.mpr ⟨pte,by rw [hpage]; exact hget,hu,by simp,rfl⟩
    have hsame := hothers q' hq' (v * PGSIZE + (va + i) % PGSIZE)
    rw [peek_some (s := s) hl' hd' hf',peek_some (s := { s with mem := k }) hl' hd' hf',hoff,
      Option.some.injEq] at hsame
    have hnew := hc.new i hin pte.frame hf
    rw [hb,Option.some.injEq] at hnew
    rw [← hsame,hnew]

theorem copies_of_safe (h : CopySafe s q d va p) (hl : (s.proc q).live)
    (hd : (s.proc q).pgdir = some d) (hk : KernelHalf d) (hx : Distinct d) :
    CopiesOut s q d va p := by
  have htotal : Total (copyout d va p) s.mem fun ok k' => ∃ n, Copied d va p s.mem k' n ∧
      (ok = true → n = p.length) ∧
      (ok = false → n < p.length ∧ translate d (va + n) false = none ∧
        d.hasTable (pageOf (va + n))) := by
    refine (copyout_spec hk hx).mono (fun _ _ hq => hq) ?_
    rintro e t ⟨-,n,hn,huser,htab⟩
    exact htab (h.table n hn huser)
  obtain ⟨ok,k,hrun,n,hc,hok,hbad⟩ := htotal.exists_ok
  refine ⟨ok,k,hrun,fun hb w => ?_,fun q' hq' w => ?_⟩
  · have hn := hok hb
    split
    · rename_i hw
      obtain ⟨f,hf⟩ := Option.isSome_iff_exists.mp (hc.user (w - va) (by omega))
      have hadd : va + (w - va) = w := by omega
      have hnew := hc.new (w - va) (by omega) f hf
      rw [hadd] at hf hnew
      rw [peek_some (s := { s with mem := k }) hl hd hf,hnew]
    · rename_i hw
      refine peek_mem_congr q w fun _ d₁ f hd₁ hf => ?_
      obtain rfl : d = d₁ := Option.some.inj (hd.symm.trans hd₁)
      refine hc.old f _ fun i hi hfi ho => hw ?_
      have := translate_inj hk hx hf hfi ho.symm
      omega
  · refine peek_mem_congr q' w fun hl' d' f hd' hf => ?_
    by_cases hhit : ∃ i < n, translate d (va + i) false = some f ∧
        (va + i) % PGSIZE = w % PGSIZE
    · obtain ⟨i,hi,hfi,ho⟩ := hhit
      obtain ⟨pte,hget,hu,-,hfr⟩ := translate_eq_some.mp hf
      have hnew := hc.new i hi f hfi
      have hsafe := h.alone i f _ (fun j hj => hc.user j (by omega)) hfi hnew
        ⟨q',hq',hl',d',_,pte,hd',hget,hu,hfr⟩
      rw [← ho,hsafe]
    · refine hc.old f _ fun i hi hfi ho => hhit ⟨i,hi,hfi,ho⟩

/-- In every state of a run, for every process, user address and string: `copyout` does what it
should exactly when every byte up to the first address that is not the user's goes to a frame
that no other process maps, or is there already, and no page table is missing. -/
theorem copyout_respects_iff (h : Run out s) (hl : (s.proc q).live)
    (hd : (s.proc q).pgdir = some d) (va : UInt32) (p : List UInt8) :
    CopiesOut s q d va.toNat p ↔ CopySafe s q d va.toNat p := by
  obtain ⟨d₀,hd₀,hk⟩ := ((run_inv h).wf.slot q).dir hl
  obtain rfl : d = d₀ := Option.some.inj (hd.symm.trans hd₀)
  have hx := run_distinct h q hl d hd
  exact ⟨fun hc => safe_of_copies hc hk hx,fun hc => copies_of_safe hc hl hd hk hx⟩

omit [KernelImage] in
/-- The first process has its page for itself. -/
theorem copyout_respects_iff_first : ∃ (_ : KernelImage) (out : List Frame) (s : Kernel Kmem)
    (d : PageDir), Booted out s ∧ (s.proc firstSlot).pgdir = some d ∧
      CopiesOut s firstSlot d 0 [7] := by
  let _ := KernelImage.small
  obtain ⟨out,s,hb⟩ := exists_booted
  obtain ⟨d,mem,hten,hget,-,hslots⟩ := booted_tenant hb
  have hl := Proc.live_of_state hten.state (by decide) (by decide)
  refine ⟨_,out,s,d,hb,hten.pgdir,(copyout_respects_iff (.init hb) hl hten.pgdir 0 [7]).mpr ⟨?_,?_⟩⟩
  · intro i hi _
    obtain rfl : i = 0 := by simpa using hi
    exact hasTable_of_get hget
  · rintro i f b - - - ⟨q,hq,hlq,-⟩
    exact (hlq.1 (hslots q hq)).elim

/-- After a `fork` the parent and its child share page 0. -/
theorem exists_shared : ∃ out s np d c pte, Run out s ∧ np ≠ firstSlot ∧
    (s.proc firstSlot).live ∧ (s.proc firstSlot).pgdir = some d ∧ d.get 0 = some pte ∧
    (s.proc np).live ∧ (s.proc np).pgdir = some c ∧ c.get 0 = some pte ∧ pte.u = true := by
  obtain ⟨out,s₀,hb⟩ := exists_booted
  obtain ⟨d₀,mem,hten,hget,hroom,hslots⟩ := booted_tenant hb
  have hinv := booted_inv hb
  have hl := Proc.live_of_state hten.state (by decide) (by decide)
  have hsz : (s₀.proc firstSlot).sz = PGSIZE := by rw [hten.sz,Nat.one_mul]
  have hun : ∃ np, s₀.unused = some np := by
    rw [← Option.isSome_iff_exists,Ptable.unused,List.find?_isSome]
    exact ⟨⟨1,by decide⟩,List.mem_finRange _,by rw [hslots _ (by decide)]; rfl⟩
  obtain ⟨np,hnp⟩ := hun
  have htotal : Total (step (.fork firstSlot)) s₀ fun _ t =>
      ∃ np d' c, Forked s₀ t firstSlot np d₀ d' c := by
    refine whenRunnable_post (fun hr => (hr hten.state).elim) fun _ => ?_
    rw [post_map]
    refine ((fork_first hinv hl hten.pgdir (by rw [hsz]; decide) hget hnp (by omega)
      (.inr hsz.le)).and_post (fork_cases hinv hl hten.pgdir)).imp ?_
    rintro r t ⟨⟨hr,-⟩,⟨rfl,-⟩ | ⟨-,hf⟩⟩
    · have := hr.mp rfl
      omega
    · exact hf
  obtain ⟨r,s,hs,np,d,c,hf⟩ := htotal.exists_ok
  have hstate : (s.proc firstSlot).state = .RUNNABLE := by rw [hf.parent]; exact hten.state
  have hpages : 0 < pages (s₀.proc firstSlot).sz := by rw [hsz]; decide
  have hne : np ≠ firstSlot := fun he => by
    have hu := Ptable.unused_state hf.unused
    rw [he] at hu
    exact hl.1 hu
  refine ⟨out,s,np,d,c,share { w := true, u := true, cow := false, frame := mem },
    .step _ (.init hb) trivial hs,hne,
    Proc.live_of_state hstate (by decide) (by decide),by rw [hf.parent],?_,
    Proc.live_of_state hf.state (by decide) (by decide),hf.pgdir,?_,?_⟩
  · rw [hf.shared.get 0,if_pos ⟨le_rfl,hpages⟩,hget]; rfl
  · rw [hf.child 0 (by decide),if_pos hpages,hget]; rfl
  · rfl

omit [KernelImage] in
/-- One byte copied out to the parent is read by the child. -/
theorem copyout_leaks : ∃ (_ : KernelImage) (out : List Frame) (s : Kernel Kmem) (np : Slot)
    (d : PageDir) (b : UInt8) (k : Kmem), Run out s ∧ np ≠ firstSlot ∧
      (s.proc firstSlot).pgdir = some d ∧ copyout d 0 [b] s.mem = .ok true k ∧
      peek { s with mem := k } np 0 ≠ peek s np 0 := by
  let _ := KernelImage.small
  obtain ⟨out,s,np,d,c,pte,hrun,hne,hl,hd,hget,hlc,hc,hgetc,hu⟩ := exists_shared
  obtain ⟨d₁,hd₁,hk⟩ := ((run_inv hrun).wf.slot firstSlot).dir hl
  obtain rfl : d = d₁ := Option.some.inj (hd.symm.trans hd₁)
  have htr : ∀ d : PageDir, d.get 0 = some pte → translate d 0 false = some pte.frame :=
    fun d hget => translate_eq_some.mpr ⟨pte,hget,hu,by simp,rfl⟩
  have htotal : Total (copyout d 0 [s.mem.bytes pte.frame 0 + 1]) s.mem fun ok k =>
      ok = true ∧ k.bytes pte.frame 0 = s.mem.bytes pte.frame 0 + 1 := by
    refine (copyout_spec hk (run_distinct hrun firstSlot hl d hd)).mono ?_ ?_
    · rintro ok k ⟨n,hcopied,hok,hbad⟩
      have hn : 0 < n := copied_lt hok hbad (by simp) fun j hj => by
        obtain rfl : j = 0 := by omega
        rw [Nat.add_zero,htr d hget]; rfl
      have hnew := hcopied.new 0 hn pte.frame (htr d hget)
      refine ⟨?_,(Option.some.inj hnew).symm⟩
      cases ok with
      | true => rfl
      | false =>
        have := (hbad rfl).1
        simp only [List.length_singleton] at this
        omega
    · rintro e k ⟨-,n,hn,-,htab⟩
      obtain rfl : n = 0 := by simpa using hn
      exact htab (hasTable_of_get hget)
  obtain ⟨ok,k,hrun',rfl,hbyte⟩ := htotal.exists_ok
  refine ⟨_,out,s,np,d,_,k,hrun,hne,hd,hrun',?_⟩
  rw [peek_some (s := { s with mem := k }) hlc hc (htr c hgetc),peek_some hlc hc (htr c hgetc)]
  intro he
  have hsame : k.bytes pte.frame 0 = s.mem.bytes pte.frame 0 := Option.some.inj he
  rw [hbyte] at hsame
  exact absurd hsame (by simp)

end ResumePointers.Cow

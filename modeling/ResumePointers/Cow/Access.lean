import ResumePointers.Cow.Steps

/-! User loads and stores: a store that faults on a shared page goes on in a page that is
its process's own, and nobody sees the difference. -/
namespace ResumePointers.Cow

open Xv6 Kernel

variable [KernelImage] {M : Finset Frame} {s t : Kernel Kmem} {p q : Slot} {d d' : PageDir}
  {k : Kmem} {va : ℕ}

/-- What a fault of `p` at `va` leaves when it has been handled. -/
structure Split (s t : Kernel Kmem) (p : Slot) (va : ℕ) (d d' : PageDir) (pte : Pte)
    (mem : Frame) : Prop where
  eq : t = s.resized p d' (s.proc p).sz t.mem
  page : pageOf va < USERPAGES
  old : d.get (pageOf va) = some pte
  user : pte.u = true
  fresh : mem ∉ s.usersBut p + d.users
  get : ∀ v, d'.get v = if v = pageOf va then
    some { w := true, u := true, cow := false, frame := mem } else d.get v
  users : d'.users + {pte.frame} = d.users + {mem}
  bytes : t.mem.bytes mem = s.mem.bytes pte.frame
  keeps : Keeps (fun g => g ∈ s.usersBut p + d'.users ∧ g ≠ mem) s.mem t.mem

namespace Split

variable {pte : Pte} {mem : Frame}

/-- A frame that is still referred to was so before, or is the new one. -/
theorem mem_of (h : Split s t p va d d' pte mem) {g : Frame} (hg : g ∈ d'.users) :
    g ∈ d.users ∨ g = mem := by
  have hg' : g ∈ d.users + {mem} := by
    rw [← h.users]; exact Multiset.mem_add.mpr (.inl hg)
  rcases Multiset.mem_add.mp hg' with hg' | hg'
  · exact .inl hg'
  · exact .inr (Multiset.mem_singleton.mp hg')

theorem inv (h : Split s t p va d d' pte mem) (hinv : Inv M s) (hl : (s.proc p).live)
    (hd : (s.proc p).pgdir = some d) (hwf : t.Wf M 0) : Inv M t := by
  rw [h.eq] at hwf ⊢
  have hown := hinv.own p hl d hd
  have hmemU : mem ∉ s.usersBut p := fun hm => h.fresh (by simp [hm])
  have hmemd : mem ∉ d.users := fun hm => h.fresh (by simp [hm])
  have hold : pte.frame ≠ mem := by
    rintro rfl; exact hmemd (frame_mem_users h.page h.old)
  have hcount : ∀ g, d'.users.count g + (if g = pte.frame then 1 else 0) =
      d.users.count g + if g = mem then 1 else 0 := fun g => by
    have := congrArg (Multiset.count g) h.users
    rwa [Multiset.count_add,Multiset.count_add,Multiset.count_singleton,
      Multiset.count_singleton] at this
  refine hinv.resized hl hd hwf (fun v hv pte' hp => ?_) (fun g hg hU => ?_) (hinv.size p hl)
  · rw [h.get v] at hp
    split at hp
    · rw [Option.some.injEq] at hp
      subst hp
      have hc := hcount mem
      rw [if_neg (Ne.symm hold),if_pos rfl,Multiset.count_eq_zero.mpr hmemd] at hc
      have h1 : d'.users.count mem = 1 := by simpa using hc
      refine .inl ⟨rfl,?_⟩
      rw [Multiset.count_add,Multiset.count_eq_zero.mpr hmemU,zero_add,h1]
    · rename_i hvv
      rcases hown v hv pte' hp with ⟨hw,h1⟩ | hcow
      · refine .inl ⟨hw,?_⟩
        rw [Inv.users_split hl hd,Multiset.count_add] at h1
        have hpos : 0 < d'.users.count pte'.frame := Multiset.count_pos.mpr
          (frame_mem_users (p := pte') hv (by rw [h.get v,if_neg hvv]; exact hp))
        have hne : pte'.frame ≠ mem := fun he => hmemd (he ▸ frame_mem_users hv hp)
        have hc := hcount pte'.frame
        rw [if_neg hne] at hc
        rw [Multiset.count_add]
        split at hc <;> omega
      · exact .inr hcow
  · rcases h.mem_of hg with hg' | rfl
    · exact hg'
    · exact (hmemU hU).elim

theorem eager_eq (h : Split s t p va d d' pte mem) (hl : (s.proc p).live)
    (hd : (s.proc p).pgdir = some d) : eager t = eager s := by
  have hmemU : mem ∉ s.usersBut p := fun hm => h.fresh (by simp [hm])
  have hmemd : mem ∉ d.users := fun hm => h.fresh (by simp [hm])
  rw [h.eq]
  refine eager_resized_self hl hd (fun g hg => ?_) ?_
  · exact h.keeps.page g ⟨by simp [hg],fun he => hmemU (he ▸ hg)⟩
  · funext v
    unfold view
    by_cases hv : v < USERPAGES
    · rw [if_pos hv,if_pos hv,h.get v]
      by_cases hvv : v = pageOf va
      · rw [if_pos hvv,hvv,h.old,Option.map_some,Option.map_some]
        rw [show t.mem.bytes mem = s.mem.bytes pte.frame from h.bytes,h.user]
      · rw [if_neg hvv]
        cases hget : d.get v with
        | none => rfl
        | some pte' =>
          have hg : pte'.frame ∈ d'.users :=
            frame_mem_users hv (by rw [h.get v,if_neg hvv]; exact hget)
          have hk := h.keeps.page pte'.frame
            ⟨by simp [hg],fun he => hmemd (he ▸ frame_mem_users hv hget)⟩
          exact congrArg some (congrArg (UserPage.mk pte'.u) hk)
    · rw [if_neg hv,if_neg hv]

end Split

/-- The handled fault; where it panics on a page that the process may read, pages have run
out. -/
theorem trap_spec (h : Inv M s) (hl : (s.proc p).live) (hd : (s.proc p).pgdir = some d) :
    Post (trap p va) s
      (fun _ t => s.mem.freelist ≠ [] ∧ t.Wf M 0 ∧ ∃ d' pte mem, Split s t p va d d' pte mem)
      fun e t => e.allocator = false ∧
        ((translate d va false).isSome → t.mem.dry = true ∧ s.mem.freelist = []) := by
  obtain ⟨d₀,hd₀,hk⟩ := (h.wf.slot p).dir hl
  obtain rfl : d₀ = d := by rw [hd] at hd₀; exact (Option.some.inj hd₀).symm
  have hbad : ∀ msg, (Panic.panic msg).allocator = false → translate d₀ va false = none →
      ∀ t : Kernel Kmem, (Panic.panic msg).allocator = false ∧
        ((translate d₀ va false).isSome → t.mem.dry = true ∧ s.mem.freelist = []) := by
    intro msg hm hn t
    exact ⟨hm,fun hs => by rw [hn] at hs; cases hs⟩
  simp only [trap,post_bind,post_get,hd,post_onMem]
  by_cases hacc : ∃ pte, d₀.get (pageOf va) = some pte ∧ pte.u = true
  · obtain ⟨pte,hget,hu⟩ := hacc
    have hv := user_page hk hget hu
    have hcow : pte.w = true ∨ pte.cow = true := by
      rcases h.own p hl d₀ hd _ hv pte hget with ⟨hw,-⟩ | ⟨-,hc⟩
      · exact .inl hw
      · exact .inr hc
    refine (handle_pgflt_helper_spec hv hget hu hcow (h.wf.split hl hd)).mono ?_ ?_
    · rintro d' k' ⟨hh,mem,hfresh,hg,hus,hkern,hb,hp,hfree⟩
      have hk' : KernelHalf d' := hk.congr fun v hv' => by rw [hg v,if_neg (by omega)]
      have hres : ({ s with mem := k' } : Kernel Kmem).setProc p
          { s.proc p with pgdir := some d' } = s.resized p d' (s.proc p).sz k' := rfl
      simp only [post_modify]
      rw [if_neg (by simp [h.alive p])]
      refine ⟨hfree,?_⟩
      change (s.resized p d' (s.proc p).sz k').Wf M 0 ∧ _
      exact ⟨h.wf.resized hl hk' hh,d',pte,mem,⟨rfl,hv,hget,hu,hfresh,hg,hus,hb,hp⟩⟩
    · rintro e k' ⟨he,hst,hnil⟩
      exact ⟨he,fun _ => ⟨hst,hnil⟩⟩
  · have hnone : translate d₀ va false = none := by
      rw [Option.eq_none_iff_forall_ne_some]
      intro f hf
      obtain ⟨pte,hget,hu,-⟩ := translate_eq_some.mp hf
      exact hacc ⟨pte,hget,hu⟩
    unfold handle_pgflt_helper
    split
    · exact hbad _ (by decide) hnone _
    · exact hbad _ (by decide) hnone _
    · rename_i pte hw
      obtain ⟨-,hget⟩ := walkpgdir_eq_some.mp hw
      have hu : pte.u = false := by
        cases hpu : pte.u with
        | false => rfl
        | true => exact (hacc ⟨pte,hget,hpu⟩).elim
      rw [if_pos hu]
      exact hbad _ (by decide) hnone _

/-- A user access ends with a frame that it may use, in a state that looks the same. -/
theorem touch_spec {write : Bool} (h : Inv M s) (hl : (s.proc p).live)
    (hd : (s.proc p).pgdir = some d) :
    Post (touch p va write) s
      (fun r t => Inv M t ∧ (s.mem.dry = true → t.mem.dry = true) ∧ eager t = eager s ∧
        Alone p s t ∧ (∃ d' f, (t.proc p).pgdir = some d' ∧ r = some f ∧
          translate d' va write = some f) ∧
        ((translate d va write).isSome ∨
          (translate d va false).isSome ∧ s.mem.freelist ≠ []))
      fun e t => e.allocator = false ∧ translate d va write = none ∧
        ((translate d va false).isSome → t.mem.dry = true ∧ s.mem.freelist = []) := by
  simp only [touch,post_bind,post_get,hd,Option.bind_some]
  split
  · rename_i f hf
    exact ⟨h,id,rfl,.refl p s,⟨d,f,hd,rfl,hf⟩,.inl (by rw [hf]; rfl)⟩
  · rename_i hnone
    simp only [post_bind,post_get,post_pure]
    refine (trap_spec h hl hd).mono ?_ fun _ _ he => ⟨he.1,hnone,he.2⟩
    rintro - t ⟨hfree,hwf,d',pte,mem,hsp⟩
    have hproc : t.proc p = { s.proc p with pgdir := some d', sz := (s.proc p).sz } := by
      rw [hsp.eq,resized_proc]
    have htr : translate d' va write = some mem :=
      translate_eq_some.mpr ⟨_,by rw [hsp.get,if_pos rfl],rfl,fun _ => rfl,rfl⟩
    have hread : translate d va false = some pte.frame :=
      translate_eq_some.mpr ⟨pte,hsp.old,hsp.user,by simp,rfl⟩
    refine ⟨hsp.inv h hl hd hwf,hsp.keeps.starved,hsp.eager_eq hl hd,?_,⟨d',mem,?_,?_,htr⟩,
      .inr ⟨by rw [hread]; rfl,hfree⟩⟩
    · rw [hsp.eq]; exact resized_alone s p d' _ _
    · rw [hproc]
    · rw [hproc,Option.bind_some,htr]

/-- What the abstract machine reads where the kernel translates. -/
theorem eager_read {write : Bool} {f : Frame} (h : Inv M s) (hl : (s.proc p).live)
    (hd : (s.proc p).pgdir = some d) (hf : translate d va write = some f) :
    (eager s).mem p (pageOf va) = some ⟨true,s.mem.bytes f⟩ := by
  obtain ⟨d₀,hd₀,hk⟩ := (h.wf.slot p).dir hl
  obtain rfl : d₀ = d := by rw [hd] at hd₀; exact (Option.some.inj hd₀).symm
  obtain ⟨pte,hget,hu,-,rfl⟩ := translate_eq_some.mp hf
  rw [eager_mem hl hd,view,if_pos (user_page hk hget hu),hget,Option.map_some,hu]

theorem load_kept (h : Inv M s) (hl : (s.proc p).live) :
    Post (load p va) s
      (fun r t => Kept M s (((eager s).read p va).map fun b => (b.toNat : ℤ),eager s) r t ∧
        Alone p s t)
      fun e _ => e.allocator = false := by
  obtain ⟨d,hd,-⟩ := (h.wf.slot p).dir hl
  simp only [load,post_bind,post_get,post_pure]
  refine (touch_spec h hl hd).mono ?_ fun _ _ he => he.1
  rintro r t ⟨hinv,hdry,heq,hal,⟨d',f,hd',rfl,hf⟩,-⟩
  have hlt := hal.live hl
  refine ⟨⟨hinv,hdry,fun _ => ?_⟩,hal⟩
  rw [← heq,Eager.read,eager_read hinv hlt hd' hf]
  rfl

/-- A store through a writable entry is seen by its process only. -/
theorem store_byte {f : Frame} (b : UInt8) (h : Inv M s) (hl : (s.proc p).live)
    (hd : (s.proc p).pgdir = some d) (hf : translate d va true = some f) :
    Inv M { s with mem := setPage f (Function.update (page s.mem f) (va % PGSIZE) b) s.mem } ∧
    eager { s with mem := setPage f (Function.update (page s.mem f) (va % PGSIZE) b) s.mem } =
      (eager s).write p va b := by
  obtain ⟨d₀,hd₀,hk⟩ := (h.wf.slot p).dir hl
  obtain rfl : d₀ = d := by rw [hd] at hd₀; exact (Option.some.inj hd₀).symm
  have hmem := eager_read h hl hd hf
  obtain ⟨pte,hget,hu,hw,rfl⟩ := translate_eq_some.mp hf
  have hv := user_page hk hget hu
  have hcount : s.users.count pte.frame = 1 := by
    rcases h.own p hl d₀ hd _ hv pte hget with ⟨-,h1⟩ | ⟨hw',-⟩
    · exact h1
    · rw [hw rfl] at hw'; cases hw'
  rw [Inv.users_split hl hd,Multiset.count_add] at hcount
  have hpos := Multiset.count_pos.mpr (frame_mem_users hv hget)
  have hbytes : ∀ g, g ≠ pte.frame →
      (setPage pte.frame (Function.update (page s.mem pte.frame) (va % PGSIZE) b) s.mem).bytes g =
        s.mem.bytes g := fun g hg => Function.update_of_ne hg _ _
  have hU : ∀ g ∈ s.usersBut p, g ≠ pte.frame := by
    rintro g hg rfl
    have := Multiset.count_pos.mpr hg
    omega
  refine ⟨h.congr ⟨h.wf.held.setPage _ _,h.wf.slot⟩ rfl (fun q hlq => ⟨hlq,rfl,rfl⟩) h.alive,?_⟩
  have hup := eager_update (s := s) (t := { s with
    mem := setPage pte.frame (Function.update (page s.mem pte.frame) (va % PGSIZE) b) s.mem })
    (p := p) (fun _ _ => rfl) fun g hg => hbytes g (hU g hg)
  rw [hup,Eager.write,hmem]
  dsimp only
  have hview : view (setPage pte.frame
      (Function.update (page s.mem pte.frame) (va % PGSIZE) b) s.mem) d₀ =
      Function.update (view s.mem d₀) (pageOf va)
        (some ⟨true,Function.update (s.mem.bytes pte.frame) (va % PGSIZE) b⟩) := by
    funext w
    by_cases hwv : w = pageOf va
    · subst hwv
      rw [Function.update_self,view,if_pos hv,hget,Option.map_some,hu]
      refine congrArg some (congrArg (UserPage.mk true) ?_)
      exact Function.update_self _ _ _
    · rw [Function.update_of_ne hwv]
      unfold view
      by_cases hw' : w < USERPAGES
      · rw [if_pos hw',if_pos hw']
        cases hget' : d₀.get w with
        | none => rfl
        | some pte' =>
          have hne : pte'.frame ≠ pte.frame := fun he => by
            have := two_le_count_users hv hw' (Ne.symm hwv) hget hget' he
            omega
          exact congrArg some (congrArg (UserPage.mk pte'.u) (hbytes _ hne))
      · rw [if_neg hw',if_neg hw']
  have hx : absProc (setPage pte.frame
      (Function.update (page s.mem pte.frame) (va % PGSIZE) b) s.mem) (s.proc p) =
      { (eager s).proc p with pgdir := some (Function.update (view s.mem d₀) (pageOf va)
        (some ⟨true,Function.update (s.mem.bytes pte.frame) (va % PGSIZE) b⟩)) } := by
    rw [← hview]
    unfold absProc
    rw [if_pos hl,hd]
    rfl
  rw [hx,eager_mem hl hd]
  rfl

/-- A store writes its byte, unless the process may not write there and there is no page to
split. -/
theorem store_spec (b : UInt8) (h : Inv M s) (hl : (s.proc p).live)
    (hd : (s.proc p).pgdir = some d) :
    Post (store p va b) s
      (fun r t => r = some 0 ∧ Inv M t ∧ (s.mem.dry = true → t.mem.dry = true) ∧
        eager t = (eager s).write p va b ∧ ((eager s).read p va).isSome ∧ Alone p s t)
      fun e t => e.allocator = false ∧ translate d va true = none ∧
        ((translate d va false).isSome → t.mem.dry = true ∧ s.mem.freelist = []) := by
  simp only [store,post_bind]
  refine (touch_spec h hl hd).imp ?_
  rintro r t ⟨hinv,hdry,heq,hal,⟨d',f,hd',rfl,hf⟩,-⟩
  simp only [post_bind,post_onMem,post_modify,post_pure]
  have hlt := hal.live hl
  obtain ⟨h1,h2⟩ := store_byte b hinv hlt hd' hf
  refine ⟨trivial,h1,hdry,?_,?_,⟨hal.proc,hal.pipes,hal.state⟩⟩
  · rw [← heq]; exact h2
  · rw [← heq,Eager.read,eager_read hinv hlt hd' hf]; rfl

theorem store_kept (b : UInt8) (h : Inv M s) (hl : (s.proc p).live)
    (hd : (s.proc p).pgdir = some d) :
    Post (store p va b) s
      (fun r t => r = some 0 ∧
        Kept M s (((eager s).read p va).map fun _ => 0,(eager s).write p va b) r t ∧ Alone p s t)
      fun e t => e.allocator = false ∧
        ((translate d va false).isSome → t.mem.dry = true) := by
  refine (store_spec b h hl hd).mono ?_ fun _ _ he => ⟨he.1,fun hs => (he.2.2 hs).1⟩
  rintro r t ⟨rfl,hinv,hdry,heq,hread,hal⟩
  refine ⟨rfl,⟨hinv,hdry,fun _ => ?_⟩,hal⟩
  obtain ⟨c,hc⟩ := Option.isSome_iff_exists.mp hread
  rw [heq,hc,Option.map_some]

end ResumePointers.Cow

import ResumePointers.Cow.Eager
import ResumePointers.Lib.Runs

/-! Every operation of the copy-on-write kernel keeps its invariant, and means to each
process what it means in the machine that copies at once. -/
namespace ResumePointers.Cow

open Xv6 Kernel

/-- Two pages that name the same frame are two references to it. -/
theorem two_le_count_users {d : PageDir} {v w : ℕ} {pte pte' : Pte} (hv : v < USERPAGES)
    (hw : w < USERPAGES) (hvw : v ≠ w) (hp : d.get v = some pte) (hp' : d.get w = some pte')
    (hf : pte'.frame = pte.frame) : 2 ≤ d.users.count pte.frame := by
  rw [PageDir.users,count_tally]
  refine Finset.one_lt_card.mpr ⟨v,?_,w,?_,hvw⟩
  · simp [hv,hp]
  · simp [hw,hp',hf]

theorem CowPages.mono {W W' : Multiset Frame} {d : PageDir} (h : CowPages W d)
    (hc : ∀ g ∈ d.users, W.count g = 1 → W'.count g = 1) : CowPages W' d := by
  intro v hv pte hp
  rcases h v hv pte hp with ⟨hw,h1⟩ | hs
  · exact .inl ⟨hw,hc _ (frame_mem_users hv hp) h1⟩
  · exact .inr hs

variable [KernelImage] {M : Finset Frame} {s t : Kernel Kmem} {p q : Slot} {d d' : PageDir}
  {k : Kmem}

namespace Inv

omit [KernelImage] in
theorem users_split (hl : (s.proc p).live) (hd : (s.proc p).pgdir = some d) :
    s.users = s.usersBut p + d.users := by
  rw [users_eq s p,Proc.users_of_live hl hd,add_comm]

/-- A process may get other pages, as long as it takes none of somebody else's. -/
theorem resized {sz : ℕ} (h : Inv M s) (hl : (s.proc p).live) (hd : (s.proc p).pgdir = some d)
    (hwf : (s.resized p d' sz k).Wf M 0) (hown : CowPages (s.usersBut p + d'.users) d')
    (hnew : ∀ g ∈ d'.users, g ∈ s.usersBut p → g ∈ d.users) (hsz : sz ≤ KERNBASE) :
    Inv M (s.resized p d' sz k) where
  wf := hwf
  own q hlq dq hdq := by
    rw [resized_users hl]
    by_cases hqp : q = p
    · subst hqp
      rw [resized_proc] at hdq
      obtain rfl : d' = dq := Option.some.inj hdq
      exact hown
    · rw [resized_off hqp] at hlq hdq
      refine (h.own q hlq dq hdq).mono fun g hg h1 => ?_
      have hU : g ∈ s.usersBut p :=
        mem_usersBut hqp (by rw [Proc.users_of_live hlq hdq]; exact hg)
      have hpos := Multiset.count_pos.mpr hU
      rw [users_split hl hd,Multiset.count_add] at h1
      have hnd : g ∉ d.users := fun hgd => by
        have := Multiset.count_pos.mpr hgd; omega
      have hnd' : g ∉ d'.users := fun hgd => hnd (hnew g hgd hU)
      rw [Multiset.count_add,Multiset.count_eq_zero.mpr hnd']
      omega
  size q hlq := by
    by_cases hqp : q = p
    · subst hqp; rw [resized_proc]; exact hsz
    · rw [resized_off hqp] at hlq ⊢
      exact h.size q hlq
  alive q := by
    by_cases hqp : q = p
    · subst hqp; rw [resized_proc]; exact h.alive q
    · rw [resized_off hqp]; exact h.alive q

/-- Nothing that the invariant is about has changed but the books themselves. -/
theorem congr (h : Inv M s) (hwf : t.Wf M 0) (hu : t.users = s.users)
    (ht : ∀ q, (t.proc q).live → ((s.proc q).live ∧ (t.proc q).pgdir = (s.proc q).pgdir ∧
      (t.proc q).sz = (s.proc q).sz))
    (hk : ∀ q, (t.proc q).killed = false) : Inv M t where
  wf := hwf
  own q hl d hd := by
    obtain ⟨hl',hd',-⟩ := ht q hl
    rw [hu]
    exact h.own q hl' d (hd' ▸ hd)
  size q hl := by
    obtain ⟨hl',-,hs⟩ := ht q hl
    rw [hs]; exact h.size q hl'
  alive := hk

theorem same (h : Inv M s) (ht : ∀ q, Ptable.SameImage (s.proc q) (t.proc q))
    (hp : t.pipes = s.pipes) (hm : t.mem = s.mem) : Inv M t :=
  h.congr (h.wf.same ht hp hm) (users_congr fun q => Proc.users_congr (ht q).live (ht q).pgdir)
    (fun q hl => ⟨(ht q).live.mp hl,(ht q).pgdir,(ht q).sz⟩) fun q => by
      rw [(ht q).killed]; exact h.alive q

end Inv

omit [KernelImage] in
/-- The abstract process of a changed address space. -/
theorem eager_resized {sz : ℕ} (hl : (s.proc p).live)
    (hk : ∀ g ∈ s.usersBut p, k.bytes g = s.mem.bytes g) :
    eager (s.resized p d' sz k) = (eager s).setProc p { (eager s).proc p with
      pgdir := some (view k d'), sz := sz } := by
  rw [eager_update (s := s) (p := p) (fun q hq => resized_off hq) hk,resized_proc]
  have hx : absProc (s.resized p d' sz k).mem { s.proc p with pgdir := some d', sz := sz } =
      { (eager s).proc p with pgdir := some (view k d'), sz := sz } := by
    have hl' : ({ s.proc p with pgdir := some d', sz := sz } : Proc PageDir).live := hl
    unfold absProc
    rw [if_pos hl']
    rfl
  rw [hx]
  rfl

omit [KernelImage] in
theorem eager_pgdir (hl : (s.proc p).live) (hd : (s.proc p).pgdir = some d) :
    ((eager s).proc p).pgdir = some (view s.mem d) := by
  simp [eager,absProc,hl,hd]

omit [KernelImage] in
theorem eager_mem (hl : (s.proc p).live) (hd : (s.proc p).pgdir = some d) :
    (eager s).mem p = view s.mem d := by
  rw [Eager.mem,eager_pgdir hl hd]; rfl

omit [KernelImage] in
/-- A change of the address space that its process cannot see. -/
theorem eager_resized_self (hl : (s.proc p).live) (hd : (s.proc p).pgdir = some d)
    (hk : ∀ g ∈ s.usersBut p, k.bytes g = s.mem.bytes g) (hv : view k d' = view s.mem d) :
    eager (s.resized p d' (s.proc p).sz k) = eager s := by
  rw [eager_resized hl hk,hv]
  have hx : { (eager s).proc p with pgdir := some (view s.mem d), sz := (s.proc p).sz } =
      (eager s).proc p := by
    rw [← eager_pgdir hl hd]
    rfl
  rw [hx,Ptable.setProc,Function.update_eq_self]

/-- What an operation owes: the invariant, that no shortage is forgotten, and, if pages
never ran short, the answer of the abstract machine. -/
def Kept (M : Finset Frame) (s : Kernel Kmem) (a : Option ℤ × Eager) (r : Option ℤ)
    (t : Kernel Kmem) : Prop :=
  Inv M t ∧ (s.mem.dry = true → t.mem.dry = true) ∧ (¬ t.mem.dry = true → a = (r,eager t))

section Growproc

theorem view_of_grew {U : Multiset Frame} {k k' : Kmem} {lo hi : ℕ} (hg : Grew U k k' d d' lo hi)
    (hhi : hi ≤ USERPAGES) :
    view k' d' = fun v => if lo ≤ v ∧ v < hi then some ⟨true,zeroPage⟩ else view k d v := by
  funext v
  unfold view
  by_cases hv : v < USERPAGES
  · rw [if_pos hv,if_pos hv]
    by_cases hin : lo ≤ v ∧ v < hi
    · obtain ⟨f,hf,-,hz⟩ := hg.fresh v hin.1 hin.2
      rw [if_pos hin,hf,Option.map_some]
      exact congrArg some (congrArg (UserPage.mk true) hz)
    · rw [if_neg hin,hg.outside v (by omega)]
      cases hget : d.get v with
      | none => rfl
      | some pte =>
        have hk := hg.keeps.page pte.frame (by simp [frame_mem_users hv hget])
        exact congrArg some (congrArg (UserPage.mk pte.u) hk)
  · rw [if_neg hv,if_neg (by omega),if_neg hv]

theorem view_of_shrank {U : Multiset Frame} {k k' : Kmem} {lo hi : ℕ}
    (hs : Shrank U k k' d d' lo hi) :
    view k' d' = fun v => if lo ≤ v ∧ v < hi then none else view k d v := by
  funext v
  unfold view
  by_cases hv : v < USERPAGES
  · rw [if_pos hv,if_pos hv,hs.get v]
    by_cases hin : lo ≤ v ∧ v < hi
    · rw [if_pos hin,if_pos hin]; rfl
    · rw [if_neg hin,if_neg hin]
      cases hget : d.get v with
      | none => rfl
      | some pte =>
        have hmem : pte.frame ∈ d'.users :=
          frame_mem_users hv (by rw [hs.get v,if_neg hin]; exact hget)
        have hk := hs.keeps.page pte.frame (by simp [hmem])
        exact congrArg some (congrArg (UserPage.mk pte.u) hk)
  · rw [if_neg hv,if_neg hv]
    split <;> rfl

theorem CowPages.grew {U : Multiset Frame} {k k' : Kmem} {lo hi : ℕ}
    (h : CowPages (U + d.users) d) (hg : Grew U k k' d d' lo hi) :
    CowPages (U + d'.users) d' := by
  intro v hv pte hp
  by_cases hin : lo ≤ v ∧ v < hi
  · obtain ⟨f,hf,hc,-⟩ := hg.fresh v hin.1 hin.2
    rw [hp,Option.some.injEq] at hf
    subst hf
    exact .inl ⟨rfl,hc⟩
  · rw [hg.outside v (by omega)] at hp
    rcases h v hv pte hp with ⟨hw,h1⟩ | hs
    · refine .inl ⟨hw,?_⟩
      rw [hg.count _ (by simp [frame_mem_users hv hp]),h1]
    · exact .inr hs

/-- Clearing entries only takes references away. -/
theorem count_le_of_shrank {U : Multiset Frame} {k k' : Kmem} {lo hi : ℕ}
    (hs : Shrank U k k' d d' lo hi) (g : Frame) : d'.users.count g ≤ d.users.count g := by
  rw [PageDir.users,PageDir.users,count_tally,count_tally]
  refine Finset.card_le_card fun v hv => ?_
  rw [Finset.mem_filter] at hv ⊢
  refine ⟨hv.1,?_⟩
  rw [hs.get v] at hv
  split at hv
  · cases hv.2
  · exact hv.2

theorem CowPages.shrank {U : Multiset Frame} {k k' : Kmem} {lo hi : ℕ}
    (h : CowPages (U + d.users) d) (hs : Shrank U k k' d d' lo hi) :
    CowPages (U + d'.users) d' := by
  intro v hv pte hp
  have hp₀ : d.get v = some pte := by
    rw [hs.get v] at hp
    split at hp
    · cases hp
    · exact hp
  rcases h v hv pte hp₀ with ⟨hw,h1⟩ | hsh
  · refine .inl ⟨hw,?_⟩
    have hle := count_le_of_shrank hs pte.frame
    have hpos := Multiset.count_pos.mpr (frame_mem_users hv hp)
    rw [Multiset.count_add] at h1 ⊢
    omega
  · exact .inr hsh

theorem growproc_kept {n : ℤ} (h : Inv M s) (hl : (s.proc p).live) :
    Post (growproc p n) s
      (fun r t => Kept M s (some ((eager s).growproc p n).1,((eager s).growproc p n).2) (some r) t ∧
        Alone p s t)
      fun e _ => e.allocator = false := by
  obtain ⟨d,hd,-⟩ := (h.wf.slot p).dir hl
  have hsz := h.size p hl
  have hown := h.own p hl d hd
  rw [Inv.users_split hl hd] at hown
  refine (growproc_spec h.wf hl hd fun _ => hsz).imp ?_
  rintro r t ⟨hwf,d',sz',ht,hg⟩
  refine ⟨?_,ht ▸ resized_alone s p d' sz' t.mem⟩
  have hmem := eager_mem hl hd
  have hesz : ((eager s).proc p).sz = (s.proc p).sz := rfl
  have hself : eager s = (eager s).setProc p { (eager s).proc p with
      pgdir := some (view s.mem d), sz := (s.proc p).sz } := by
    rw [← eager_resized (k := s.mem) hl (fun _ _ => rfl),resized_self hd]
  generalize hnew : uint ((s.proc p).sz + n) = newsz at hg
  simp only [Eager.growproc,hesz,hnew]
  cases hg with
  | same hn hk hdd =>
    rw [hk,hdd,resized_self hd] at ht
    subst ht
    rw [if_pos hn]
    exact ⟨h,id,fun _ => rfl⟩
  | refused hn hge hk hdd =>
    rw [hk,hdd,resized_self hd] at ht
    subst ht
    rw [if_neg (by omega),if_pos hn,if_pos (hnew ▸ hge)]
    exact ⟨h,id,fun _ => rfl⟩
  | grown hn hlt hgrew =>
    rw [hnew] at hlt hgrew ht ⊢
    have hkeep := hgrew.keeps
    refine ⟨?_,hkeep.starved,fun _ => ?_⟩
    · rw [ht] at hwf ⊢
      refine h.resized hl hd hwf (hown.grew hgrew) (fun g hg hU => ?_) (max_le hsz hlt.le)
      obtain ⟨v,hv,pte,hp,rfl⟩ := mem_users.mp hg
      by_cases hin : pages (s.proc p).sz ≤ v ∧ v < pages newsz
      · obtain ⟨f,hf,hc,-⟩ := hgrew.fresh v hin.1 hin.2
        rw [hp,Option.some.injEq] at hf
        subst hf
        have h1 := Multiset.count_pos.mpr hU
        have h2 := Multiset.count_pos.mpr hg
        rw [Multiset.count_add] at hc
        dsimp only at h1 h2
        omega
      · rw [hgrew.outside v (by omega)] at hp
        exact frame_mem_users hv hp
    · rw [if_neg (by omega),if_pos hn,if_neg (by omega),ht,
        eager_resized hl fun g hg => hkeep.page g (by simp [hg]),
        view_of_grew hgrew (pages_le hlt.le),Eager.resize,hmem]
      have hmax : (if max (s.proc p).sz newsz = 0 then ((eager s).proc p).sz
          else max (s.proc p).sz newsz) = max (s.proc p).sz newsz := by
        split
        · rw [hesz]; omega
        · rfl
      rw [hmax]
  | failed hn hlt hst hs =>
    rw [hnew] at hs
    have hkeep := hs.keeps
    refine ⟨?_,hkeep.starved,fun hf => (hf hst).elim⟩
    rw [ht] at hwf ⊢
    exact h.resized hl hd hwf (hown.shrank hs)
      (fun g hg _ => mem_users_of_clear hg hs.get) hsz
  | shrunk hn hs =>
    rw [hnew] at hs ht ⊢
    have hkeep := hs.keeps
    refine ⟨?_,hkeep.starved,fun _ => ?_⟩
    · rw [ht] at hwf ⊢
      refine h.resized hl hd hwf (hown.shrank hs)
        (fun g hg _ => mem_users_of_clear hg hs.get) ?_
      split <;> omega
    · rw [if_neg (by omega),if_neg (by omega),ht,
        eager_resized hl fun g hg => hkeep.page g (by simp [hg]),view_of_shrank hs,Eager.resize,hmem]
      rfl

end Growproc

section Fork

variable {n : ℕ} {np : Slot} {f : Frame} {c : PageDir}

omit [KernelImage] in
/-- A parent that shares pages sees what it saw. -/
theorem Shared.view {lo hi : ℕ} (hs : Shared d d' lo hi)
    (hk : ∀ g ∈ d.users, k.bytes g = s.mem.bytes g) : view k d' = view s.mem d := by
  refine view_congr (fun v _ => ?_) hk
  rw [hs.get v]
  split
  · cases d.get v <;> rfl
  · rfl

omit [KernelImage] in
theorem CowPages.shared {W : Multiset Frame} {lo hi : ℕ} (h : CowPages W d)
    (hs : Shared d d' lo hi) : CowPages W d' := by
  intro v hv pte hp
  rw [hs.get v] at hp
  split at hp
  · obtain ⟨q,-,rfl⟩ := Option.map_eq_some_iff.mp hp
    exact .inr ⟨rfl,rfl⟩
  · exact h v hv pte hp

/-- The parent of a `fork`, whether it succeeds or not. -/
theorem Inv.shared {lo hi : ℕ} (h : Inv M s) (hl : (s.proc p).live)
    (hd : (s.proc p).pgdir = some d) (hs : Shared d d' lo hi)
    (hwf : (s.resized p d' (s.proc p).sz k).Wf M 0) :
    Inv M (s.resized p d' (s.proc p).sz k) := by
  have hown := h.own p hl d hd
  rw [Inv.users_split hl hd,← hs.users] at hown
  exact h.resized hl hd hwf (CowPages.shared hown hs) (fun g hg _ => hs.users ▸ hg) (h.size p hl)

/-- A slot that stays unused. -/
theorem Inv.unused {x : Proc PageDir} (h : Inv M s) (hs : (s.proc np).state = .UNUSED)
    (hx : x.state = .UNUSED) (hkill : x.killed = (s.proc np).killed)
    (hh : Held M k s.users (s.kern + 0)) :
    Inv M { s.setProc np x with nextpid := n, mem := k } := by
  have hnl : ¬ x.live := fun hl => hl.1 hx
  refine h.congr (.unused h.wf.slot hs hx hh) (users_congr fun q => ?_) (fun q hl => ?_) fun q => ?_
  · by_cases hq : q = np
    · subst hq
      simp only [setProc_proc,Function.update_self]
      rw [Proc.users_of_not_live hnl,Proc.users_of_not_live fun hl => hl.1 hs]
    · simp [hq]
  · by_cases hq : q = np
    · subst hq
      simp only [setProc_proc,Function.update_self] at hl
      exact (hnl hl).elim
    · simp only [setProc_proc,Function.update_of_ne hq] at hl ⊢
      exact ⟨hl,trivial,trivial⟩
  · by_cases hq : q = np
    · subst hq
      simp only [setProc_proc,Function.update_self]
      rw [hkill]; exact h.alive q
    · simp only [setProc_proc,Function.update_of_ne hq]
      exact h.alive q

/-- The child of a `fork` joins a kernel whose parent has shared what it has below `sz`. -/
theorem Inv.forked {pg : PageDir} (h : Inv M s) (hl : (s.proc p).live)
    (hd : (s.proc p).pgdir = some d) (hne : np ≠ p) (hs : (s.proc np).state = .UNUSED)
    (hsh : Shared d pg 0 (pages (s.proc p).sz))
    (hc : ∀ v < USERPAGES, c.get v =
      if v < pages (s.proc p).sz then (d.get v).map share else none)
    (hwf : (s.forked p np f pg c k).Wf M 0) : Inv M (s.forked p np f pg c k) := by
  have hown := h.own p hl d hd
  have husers := Inv.users_split hl hd
  have hproc : ∀ q ≠ np, (s.forked p np f pg c k).proc q =
      (s.resized p pg (s.proc p).sz k).proc q := fun q hq => Function.update_of_ne hq _ _
  have hchild : (s.forked p np f pg c k).proc np = s.child p np f c := Function.update_self _ _ _
  have hcl : (s.child p np f c).live :=
    Proc.live_of_state (c := .RUNNABLE) rfl (by decide) (by decide)
  have hnp : ((s.resized p pg (s.proc p).sz k).proc np).state = .UNUSED := by
    rw [resized_off hne]; exact hs
  have hu : (s.forked p np f pg c k).users = c.users + s.users := by
    have h1 := users_of_update (s := s.resized p pg (s.proc p).sz k) (p := np) hproc
    have h2 := users_eq (s.resized p pg (s.proc p).sz k) np
    rw [Proc.users_of_not_live fun hl => hl.1 hnp,zero_add] at h2
    rw [h1,hchild,Proc.users_of_live hcl rfl,← h2,resized_users hl,hsh.users,husers]
  -- a frame of the child is that of a page which the parent has below `sz`
  have hcmem : ∀ g ∈ c.users, ∃ v < USERPAGES, v < pages (s.proc p).sz ∧
      ∃ pte, d.get v = some pte ∧ pte.frame = g := by
    intro g hg
    obtain ⟨v,hv,pte,hp,rfl⟩ := mem_users.mp hg
    rw [hc v hv] at hp
    split at hp
    · rename_i hlt
      obtain ⟨pte₀,hp₀,rfl⟩ := Option.map_eq_some_iff.mp hp
      exact ⟨v,hv,hlt,pte₀,hp₀,rfl⟩
    · cases hp
  -- so one that is writable somewhere is not among them
  have hcount : ∀ g, g ∉ c.users → s.users.count g = 1 →
      (s.forked p np f pg c k).users.count g = 1 := fun g hg h1 => by
    rw [hu,Multiset.count_add,Multiset.count_eq_zero.mpr hg,h1]
  refine ⟨hwf,fun q hlq dq hdq => ?_,fun q hlq => ?_,fun q => ?_⟩
  · by_cases hq : q = np
    · subst hq
      rw [hchild] at hdq
      obtain rfl : c = dq := Option.some.inj hdq
      intro v hv pte hp
      rw [hc v hv] at hp
      split at hp
      · obtain ⟨pte₀,-,rfl⟩ := Option.map_eq_some_iff.mp hp
        exact .inr ⟨rfl,rfl⟩
      · cases hp
    · rw [hproc q hq] at hlq hdq
      by_cases hqp : q = p
      · subst hqp
        rw [resized_proc] at hdq
        obtain rfl : pg = dq := Option.some.inj hdq
        intro v hv pte hp
        rw [hsh.get v] at hp
        split at hp
        · obtain ⟨pte₀,-,rfl⟩ := Option.map_eq_some_iff.mp hp
          exact .inr ⟨rfl,rfl⟩
        · rename_i hge
          rcases hown v hv pte hp with ⟨hw,h1⟩ | hcow
          · refine .inl ⟨hw,hcount _ (fun hg => ?_) h1⟩
            obtain ⟨w,hw',hlt,pte',hp',hf⟩ := hcmem _ hg
            have h2 := two_le_count_users hv hw' (by omega) hp hp' hf
            rw [husers,Multiset.count_add] at h1
            omega
          · exact .inr hcow
      · rw [resized_off hqp] at hlq hdq
        refine (h.own q hlq dq hdq).mono fun g hg h1 => hcount g (fun hgc => ?_) h1
        obtain ⟨w,hw',-,pte',hp',rfl⟩ := hcmem _ hgc
        have h2 := Multiset.count_pos.mpr (frame_mem_users hw' hp')
        have h3 := Multiset.count_pos.mpr (mem_usersBut (s := s) (p := p) hqp
          (by rw [Proc.users_of_live hlq hdq]; exact hg))
        rw [husers,Multiset.count_add] at h1
        omega
  · by_cases hq : q = np
    · subst hq
      rw [hchild]
      exact h.size p hl
    · rw [hproc q hq] at hlq ⊢
      by_cases hqp : q = p
      · subst hqp; rw [resized_proc]; exact h.size q hl
      · rw [resized_off hqp] at hlq ⊢; exact h.size q hlq
  · by_cases hq : q = np
    · subst hq
      rw [hchild]
      exact h.alive q
    · rw [hproc q hq]
      by_cases hqp : q = p
      · subst hqp; rw [resized_proc]; exact h.alive q
      · rw [resized_off hqp]; exact h.alive q

omit [KernelImage] in
/-- The abstract machine copies what the kernel shares. -/
theorem eager_forked {pg : PageDir} (hl : (s.proc p).live) (hd : (s.proc p).pgdir = some d)
    (hun : s.unused = some np) (hsh : Shared d pg 0 (pages (s.proc p).sz))
    (hsz : (s.proc p).sz ≤ KERNBASE)
    (hc : ∀ v < USERPAGES, c.get v =
      if v < pages (s.proc p).sz then (d.get v).map share else none)
    (hk : ∀ g ∈ s.usersBut p + d.users, k.bytes g = s.mem.bytes g) :
    (eager s).fork p = ((s.nextpid : ℤ),eager (s.forked p np f pg c k)) := by
  have hproc : ∀ q ≠ np, (s.forked p np f pg c k).proc q =
      (s.resized p pg (s.proc p).sz k).proc q := fun q hq => Function.update_of_ne hq _ _
  have hchild : (s.forked p np f pg c k).proc np = s.child p np f c := Function.update_self _ _ _
  have hkU : ∀ g ∈ s.usersBut p, k.bytes g = s.mem.bytes g := fun g hg => hk g (by simp [hg])
  have hkd : ∀ g ∈ d.users, k.bytes g = s.mem.bytes g := fun g hg => hk g (by simp [hg])
  have hview : view k c = fun v =>
      if v < pages (s.proc p).sz then view s.mem d v else none := by
    funext v
    unfold view
    by_cases hv : v < USERPAGES
    · rw [if_pos hv,if_pos hv,hc v hv]
      split
      · cases hget : d.get v with
        | none => rfl
        | some pte =>
          exact congrArg some (congrArg (UserPage.mk pte.u) (hkd pte.frame (frame_mem_users hv hget)))
      · rfl
    · have := pages_le hsz
      rw [if_neg hv,if_neg (by omega)]
  have hself := eager_resized_self hl hd hkU (Shared.view (s := s) hsh hkd)
  have hup := eager_update (s := s.resized p pg (s.proc p).sz k)
    (t := s.forked p np f pg c k) (p := np) hproc fun _ _ => rfl
  rw [hself] at hup
  have hcl : (s.child p np f c).live :=
    Proc.live_of_state (c := .RUNNABLE) rfl (by decide) (by decide)
  unfold Eager.fork
  rw [← (agrees_eager s).unused,hun,hup,hchild]
  dsimp only
  rw [eager_mem hl hd]
  have hx : absProc (s.forked p np f pg c k).mem (s.child p np f c) =
      { (eager s).proc np with
        state := .RUNNABLE, pid := s.nextpid, allocLeft := (s.proc p).allocLeft
        pgdir := some (view k c), sz := (s.proc p).sz, parent := some p } := by
    unfold absProc
    rw [if_pos hcl]
    rfl
  rw [hx,hview]
  rfl

/-- The process in `np` is all that `t` has more than `s`. -/
structure Born (np : Slot) (s t : Kernel Kmem) : Prop where
  users : t.usersBut np = s.users
  kern : t.kernBut np = s.kern
  state : (t.proc np).state = .RUNNABLE

omit [KernelImage] in
theorem forked_born {pg : PageDir} (hl : (s.proc p).live) (hd : (s.proc p).pgdir = some d)
    (hne : np ≠ p) (hs : (s.proc np).state = .UNUSED) (hu : pg.users = d.users)
    (hkern : pg.kern = d.kern) : Born np s (s.forked p np f pg c k) := by
  have hoff : ∀ q ≠ np, (s.forked p np f pg c k).proc q =
      (s.resized p pg (s.proc p).sz k).proc q := fun q hq => Function.update_of_ne hq _ _
  have hnp : ((s.resized p pg (s.proc p).sz k).proc np).state = .UNUSED := by
    rw [resized_off hne]; exact hs
  have h1 := users_eq (s.resized p pg (s.proc p).sz k) np
  have h2 := kern_eq (s.resized p pg (s.proc p).sz k) np
  have h3 : (s.resized p pg (s.proc p).sz k).kern + 0 = s.kernRest 0 p + pg.kern :=
    resized_kern hl
  rw [Proc.users_of_not_live fun hl => hl.1 hnp,zero_add,resized_users hl,hu,
    ← Inv.users_split hl hd] at h1
  rw [Proc.kern_of_unused hnp,zero_add] at h2
  rw [hkern,add_zero,h2,kernRest,add_zero] at h3
  refine ⟨?_,?_,?_⟩
  · rw [usersBut_congr hoff,h1]
  · rw [kernBut_congr hoff rfl,h3,kern_eq s p,Proc.kern_of_live hl hd]; abel
  · rw [show (s.forked p np f pg c k).proc np = s.child p np f c from Function.update_self _ _ _]
    rfl

theorem shared_kernelHalf {pg : PageDir} {lo hi : ℕ} (h : Shared d pg lo hi) (hhi : hi ≤ USERPAGES)
    (hk : KernelHalf d) : KernelHalf pg := by
  refine hk.congr fun v hv => ?_
  rw [h.get v,if_neg (by omega)]

theorem resized_ok {pg : PageDir} {sz : ℕ} (h : ∀ q, (s.proc q).Ok) (hl : (s.proc p).live)
    (hk : KernelHalf pg) (q : Slot) : ((s.resized p pg sz k).proc q).Ok := by
  by_cases hq : q = p
  · subst hq
    rw [resized_proc]
    exact ⟨fun _ => ⟨pg,rfl,hk⟩,fun _ => (h q).kstack hl,(h q).settled⟩
  · rw [resized_off hq]
    exact h q

theorem fork_kept (h : Inv M s) (hl : (s.proc p).live) :
    Post (Kernel.fork copyuvm p) s
      (fun r t => Kept M s (some ((eager s).fork p).1,((eager s).fork p).2) (some r) t ∧
        (r = -1 ∨ ∃ np, s.unused = some np ∧ Born np s t))
      fun e _ => e.allocator = false := by
  obtain ⟨d,hd,hk⟩ := (h.wf.slot p).dir hl
  have hsz := h.size p hl
  refine fork_post hl hd (fun hfull => ⟨⟨h,id,fun _ => ?_⟩,.inl rfl⟩) fun np hun hne => ?_
  · rw [Eager.fork,← (agrees_eager s).unused,hfull]
  have hnp := Ptable.unused_state hun
  refine Total.post (kalloc_held h.wf.held) ?_
  rintro r k₁ ⟨hp₁,hn,hs⟩
  refine ⟨fun hr => ?_,fun f hf => ?_⟩
  · obtain ⟨hst,hh,-⟩ := hn hr
    exact ⟨⟨h.unused hnp rfl rfl hh,fun _ => hst,fun hd => (hd hst).elim⟩,.inl rfl⟩
  obtain ⟨-,-,hK⟩ := hs f hf
  have hkern : s.kern + 0 = s.kernRest 0 p + d.kern := by
    rw [kern_eq s p,Proc.kern_of_live hl hd,kernRest]; abel
  refine (copyuvm_spec (U := s.usersBut p) (K := {f} + s.kernRest 0 p) hsz
    (hK.congr (Inv.users_split hl hd) (by rw [hkern,add_assoc]))).imp ?_
  rintro ⟨pg,c⟩ k₂ ⟨hp₂,hbad,hgood⟩
  refine ⟨fun hc => ?_,fun c' hc => ?_⟩
  · obtain ⟨hst,hh,n,hle,hsh⟩ := hbad hc
    refine Total.post (kfree_kern (f := f) (U := s.usersBut p + pg.users)
      (K := s.kernRest 0 p + pg.kern) (hh.congr rfl (by rw [add_assoc]))) ?_
    rintro - k₃ ⟨hh₃,hp₃⟩
    have hkg : KernelHalf pg := shared_kernelHalf hsh (hle.trans (pages_le hsz)) hk
    have hinv := h.shared hl hd hsh (h.wf.resized hl hkg hh₃)
    refine ⟨⟨?_,fun hdry => hp₃.starved hst,fun hd => (hd (hp₃.starved hst)).elim⟩,.inl rfl⟩
    have hfin := hinv.unused (n := s.nextpid + 1) (x := { s.proc np with
      state := .UNUSED, pid := s.nextpid, allocLeft := 0, kstack := none, pgdir := none })
      (by rw [resized_off hne]; exact hnp) rfl (by rw [resized_off hne])
      (hh₃.congr (resized_users hl).symm (resized_kern hl).symm)
    exact hfin
  · obtain ⟨hsh,hh,hkc,hget⟩ := hgood c' hc
    have hkg : KernelHalf pg := shared_kernelHalf hsh (pages_le hsz) hk
    have hok : ∀ q, ((s.resized p pg (s.proc p).sz k₂).proc q).Ok := resized_ok h.wf.slot hl hkg
    have hwf : (s.forked p np f pg c' k₂).Wf M 0 := by
      refine Wf.spawn (s := s.resized p pg (s.proc p).sz k₂) hok
        (by rw [resized_off hne]; exact hnp)
        (Proc.live_of_state (c := .RUNNABLE) rfl (by decide) (by decide)) rfl hkc rfl ?_
      rw [resized_users hl,resized_kern hl]
      exact hh.congr (by abel) (by abel)
    refine ⟨⟨h.forked hl hd hne hnp hsh hget hwf,
      fun hdry => hp₂.starved (hp₁.starved hdry),fun _ => ?_⟩,
      .inr ⟨np,hun,forked_born hl hd hne hnp hsh.users hsh.kern⟩⟩
    rw [eager_forked hl hd hun hsh hsz hget fun g hg => ?_]
    have hpage := (hp₁.of_all.trans hp₂).page g hg
    exact hpage

end Fork

theorem exit_kept (h : Inv M s) (hl : (s.proc p).live) :
    Post (Kernel.exit p) s (fun _ t => Kept M s (none,(eager s).exit p) none t)
      fun e _ => e.allocator = false := by
  refine (exit_spec h.wf hl).mono ?_ ?_
  · rintro - t ⟨-,rfl⟩
    have hsame := Ptable.exit_same (t := s.toPtable) hl
    refine ⟨h.same hsame rfl rfl,id,fun _ => ?_⟩
    have hu := Ptable.exit_same (t := eager s) (p := p) hl
    rw [eager_same ((agrees_eager s).exit p) hsame hu]
  · rintro e - ⟨rfl,-⟩
    decide

/-- A process that has been reaped leaves the others as they are. -/
theorem Inv.reaped (h : Inv M s) (hl : (s.proc q).live) (hwf : (s.reaped q k).Wf M 0) :
    Inv M (s.reaped q k) := by
  obtain ⟨d,hd,-⟩ := (h.wf.slot q).dir hl
  have hoff : ∀ r ≠ q, (s.reaped q k).proc r = s.proc r := fun r hr =>
    Function.update_of_ne hr _ _
  have hself : (s.reaped q k).proc q = { s.proc q with
      kstack := none, pid := 0, parent := none, killed := false, state := .UNUSED } :=
    Function.update_self _ _ _
  have hnl : ¬ ((s.reaped q k).proc q).live := fun hlq => by
    rw [hself] at hlq; exact hlq.1 rfl
  have hu : (s.reaped q k).users = s.usersBut q := by
    rw [users_of_update hoff,Proc.users_of_not_live hnl,zero_add]
  refine ⟨hwf,fun r hlr dr hdr => ?_,fun r hlr => ?_,fun r => ?_⟩
  · by_cases hr : r = q
    · subst hr; exact (hnl hlr).elim
    · rw [hoff r hr] at hlr hdr
      refine (h.own r hlr dr hdr).mono fun g hg h1 => ?_
      have hpos := Multiset.count_pos.mpr (mem_usersBut (s := s) (p := q) hr
        (by rw [Proc.users_of_live hlr hdr]; exact hg))
      rw [Inv.users_split hl hd,Multiset.count_add] at h1
      rw [hu]
      omega
  · by_cases hr : r = q
    · subst hr; exact (hnl hlr).elim
    · rw [hoff r hr] at hlr ⊢
      exact h.size r hlr
  · by_cases hr : r = q
    · subst hr; rw [hself]
    · rw [hoff r hr]; exact h.alive r

theorem wait_kept (h : Inv M s) (hl : (s.proc p).live) :
    Total (Kernel.wait p) s fun r t => Kept M s ((eager s).wait p) r t := by
  refine (wait_spec h.wf hl).imp ?_
  have ha := agrees_eager s
  rintro r t ⟨hwf,⟨q,hq,rfl,ht,hp⟩ | ⟨hz,hc,rfl,rfl⟩ | ⟨hz,hc,rfl,rfl⟩⟩
  · have hlq := Proc.live_of_state (Ptable.zombieChild_spec hq).2 (by decide) (by decide)
    rw [ht] at hwf ⊢
    refine ⟨h.reaped hlq hwf,hp.starved,fun _ => ?_⟩
    have hup := eager_update (s := s) (t := s.reaped q t.mem) (p := q)
      (fun r hr => Function.update_of_ne hr _ _) fun g hg => hp.page g hg
    have hself : (s.reaped q t.mem).proc q = { s.proc q with
      kstack := none, pid := 0, parent := none, killed := false, state := .UNUSED } :=
      Function.update_self _ _ _
    rw [Eager.wait,← ha.zombieChild p,hq,hup,hself]
    rfl
  · refine ⟨h,id,fun _ => ?_⟩
    rw [Eager.wait,← ha.zombieChild p,hz]
    exact if_pos (hc.imp (fun hk hk' => hk ((ha.havekids p).mpr hk')) id)
  · refine ⟨h.same (Ptable.sleep_same hl) rfl rfl,id,fun _ => ?_⟩
    have hu := Ptable.sleep_same (t := eager s) (p := p) hl
    rw [Eager.wait,← ha.zombieChild p,hz,eager_same (ha.sleep p) (Ptable.sleep_same hl) hu]
    refine if_neg fun hc' => hc (hc'.imp (fun hk hk' => hk ((ha.havekids p).mp hk')) id)

theorem exec_inv {file : Option (List UInt8)} {argv : List (List UInt8)} (h : Inv M s)
    (hl : (s.proc p).live) :
    Post (Kernel.exec p file argv) s
      (fun _ t => Inv M t ∧ (s.mem.dry = true → t.mem.dry = true) ∧ Alone p s t)
      fun e _ => e.allocator = false := by
  obtain ⟨d,hd,-⟩ := (h.wf.slot p).dir hl
  refine (exec_spec h.wf hl).imp ?_
  rintro r t ⟨hwf,hst,⟨-,ht⟩ | ⟨-,d',sz,ht,hown,hsz,-⟩⟩
  · refine ⟨h.congr hwf ?_ (fun q hlq => ?_) fun q => ?_,hst,?_⟩
    · rw [ht]; rfl
    · rw [ht] at hlq ⊢; exact ⟨hlq,rfl,rfl⟩
    · rw [ht]; exact h.alive q
    · rw [ht]; exact ⟨fun _ _ => rfl,rfl,rfl⟩
  · refine ⟨?_,hst,ht ▸ resized_alone s p d' sz t.mem⟩
    rw [ht] at hwf ⊢
    refine h.resized hl hd hwf (fun v hv pte hp => ?_) (fun g hg hU => ?_) hsz
    · obtain ⟨hw,-,hc⟩ := hown v hv pte hp
      exact .inl ⟨hw,hc⟩
    · obtain ⟨v,hv,pte,hp,rfl⟩ := mem_users.mp hg
      exact (hown.not_mem hv hp hU).elim

/-- Pipes live in pages of the kernel. -/
theorem pipe_kept (h : Inv M s) {pipes : List Frame} (hwf : t.Wf M 0)
    (hp : Keeps (· ∈ s.users) s.mem t.mem)
    (ht : t = { s with mem := t.mem, pipes := pipes }) (r : Option ℤ) :
    Kept M s (r,eager s) r t := by
  refine ⟨h.congr hwf ?_ (fun q hlq => ?_) fun q => ?_,hp.starved,fun _ => ?_⟩
  · rw [ht]; rfl
  · rw [ht] at hlq ⊢; exact ⟨hlq,rfl,rfl⟩
  · rw [ht]; exact h.alive q
  · refine congrArg (Prod.mk r) ?_
    rw [ht]
    ext1
    · funext q
      exact (absProc_congr fun g hg => hp.page g (mem_users.mpr ⟨q,hg⟩)).symm
    all_goals rfl

end ResumePointers.Cow

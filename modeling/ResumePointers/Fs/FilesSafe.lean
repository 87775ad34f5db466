import ResumePointers.Fs.Files
import ResumePointers.Lib.Counted
import ResumePointers.Lib.Tally
import Mathlib.Data.Fintype.Sum

/-! What the reference counts of the file table and the flags of the ends of a pipe count, and what a
process may do to its own references so that they stay right. -/
namespace ResumePointers.Fs.Files

variable {Page Proc : Type} [DecidableEq Page] [DecidableEq Proc] [Fintype Proc]

/-- The files that a process is to close. -/
def Cont.held : Cont → Multiset Slot
  | .drop fs => fs
  | _ => 0

/-- The descriptors that a process has closed for good. -/
def Cont.closed : Cont → ℕ
  | .exit fd => fd
  | _ => 0

namespace Pc

/-- The files from `filealloc` that have no descriptor and no type yet. -/
def fresh : Pc Page Proc → Multiset Slot
  | opening f _ _ => {f}
  | pipe0 f0 => {f0}
  | pipe1 f0 f1 => {f0,f1}
  | _ => 0

/-- The references that a process has outside of its descriptors. -/
def held : Pc Page Proc → Multiset Slot
  | go k => k.held
  | closing _ _ k => k.held
  | pc => pc.fresh

def closed : Pc Page Proc → ℕ
  | unused | zombie => NOFILE
  | go k => k.closed
  | closing _ _ k => k.closed
  | _ => 0

/-- The end of a pipe that a process is about to close. -/
def ends : Pc Page Proc → Multiset (Page × Bool)
  | closing q w _ => {(q,w)}
  | _ => 0

end Pc

/-- The end of a pipe that a file stands for. -/
def File.ends (x : File Page) : Multiset (Page × Bool) :=
  match x.type with
  | .pipe q => {(q,x.writable)}
  | _ => 0

omit [DecidableEq Page] [DecidableEq Proc] [Fintype Proc] in
theorem File.closed_cases (Proc : Type) (x : File Page) (k : Cont) :
    ((x.closed k : Pc Page Proc) = .go k ∨ ∃ q w, (x.closed k : Pc Page Proc) = .closing q w k) ∧
      (x.closed k : Pc Page Proc).ends = x.ends := by
  unfold File.closed File.ends
  cases x.type with
  | none => exact ⟨.inl rfl,rfl⟩
  | pipe q => exact ⟨.inr ⟨_,_,rfl⟩,rfl⟩
  | inode => exact ⟨.inl rfl,rfl⟩

def Ends.isOpen (x : Ends) (writable : Bool) : Bool := if writable then x.writeopen else x.readopen

namespace State

def own (s : State Page Proc) (p : Proc) : Multiset Slot :=
  tally NOFILE (s.ofile p) + (s.pc p).held

def ends (s : State Page Proc) : Slot ⊕ Proc → Multiset (Page × Bool) :=
  Sum.elim (fun f => (s.file f).ends) fun p => (s.pc p).ends

/-- How often an end of a pipe is open. -/
def opens (s : State Page Proc) (e : Page × Bool) : ℕ :=
  ((s.pipe e.1).elim false fun x => x.isOpen e.2).toNat

end State

/-- What a process has is as its place in the code says. -/
structure Proper (s : State Page Proc) (p : Proc) : Prop where
  typed : ∀ fd < NOFILE, ∀ f, s.ofile p fd = some f → (s.file f).type ≠ .none
  fresh : ∀ f ∈ (s.pc p).fresh, (s.file f).ref = 1 ∧ (s.file f).type = .none
  closed : ∀ fd < NOFILE, fd < (s.pc p).closed → s.ofile p fd = none
  child : ∀ c i, s.pc p = .fork c i → s.pc c = .embryo ∧ ∀ fd < NOFILE, i ≤ fd → s.ofile c fd = none
  io : ∀ q, s.pc p = .io q → ∃ fd < NOFILE, ∃ f, s.ofile p fd = some f ∧ (s.file f).type = .pipe q

structure Inv (s : State Page Proc) : Prop where
  refs : Counted (fun f => (s.file f).ref) s.own
  ends : Counted s.opens s.ends
  pipe : ∀ q x, s.pipe q = some x → x.readopen = true ∨ x.writeopen = true
  free : ∀ f, (s.file f).ref = 0 → (s.file f).type = .none
  proper : ∀ p, Proper s p
  parents : ∀ p u c i j, s.pc p = .fork c i → s.pc u = .fork c j → p = u

namespace Inv

variable {s t : State Page Proc} {p u : Proc} {f : Slot} {q : Page}

omit [DecidableEq Proc] in
theorem start (h : Booted s) : Inv s := by
  have hown : ∀ p, s.own p = 0 := fun p => by
    rw [State.own,tally_eq_zero.mpr fun fd _ => h.ofile p fd]
    rcases h.pc p with hp | hp <;> rw [hp] <;> rfl
  have hends : ∀ e, s.ends e = 0 := by
    rintro (f | p)
    · simp [State.ends,File.ends,(h.file f).2]
    · rcases h.pc p with hp | hp <;> simp [State.ends,hp,Pc.ends]
  refine ⟨.start (fun f => (h.file f).1) hown,.start (fun e => by simp [State.opens,h.pipe]) hends,
    fun q x hx => ?_,fun f _ => (h.file f).2,fun p => ?_,fun p u c i j hp => ?_⟩
  · rw [h.pipe q] at hx
    cases hx
  · refine ⟨fun fd _ f hf => ?_,fun f hf => ?_,fun fd _ _ => h.ofile p fd,fun c i hc => ?_,
      fun q hq => ?_⟩
    · rw [h.ofile p fd] at hf
      cases hf
    all_goals rcases h.pc p with hp | hp <;> simp_all [Pc.fresh]
  · rcases h.pc p with hp' | hp' <;> rw [hp'] at hp <;> cases hp

omit [DecidableEq Page] [DecidableEq Proc] [Fintype Proc] in
theorem own_of_fd {fd : ℕ} (hfd : fd < NOFILE) (hf : s.ofile p fd = some f) : f ∈ s.own p :=
  Multiset.mem_add.mpr (.inl (mem_tally.mpr ⟨fd,hfd,hf⟩))

omit [DecidableEq Page] [DecidableEq Proc] [Fintype Proc] in
theorem own_of_fresh (hf : f ∈ (s.pc p).fresh) : f ∈ s.own p := by
  refine Multiset.mem_add.mpr (.inr ?_)
  cases hp : s.pc p <;> rw [hp] at hf <;> first | exact hf | cases hf

/-- What others are as before, and what one process does itself. -/
theorem change (h : Inv s) (p : Proc) (hpc : ∀ u ≠ p, t.pc u = s.pc u)
    (hofile : ∀ u ≠ p, t.ofile u = s.ofile u)
    (hrefs : ∀ f, (t.file f).ref + (s.own p).count f = (s.file f).ref + (t.own p).count f)
    (hends : Counted t.opens t.ends)
    (hpipe : ∀ q x, t.pipe q = some x → x.readopen = true ∨ x.writeopen = true)
    (hfree : ∀ f, (t.file f).ref = 0 → (t.file f).type = .none)
    (htype : ∀ f, (t.file f).type = (s.file f).type ∨ ∀ u ≠ p, f ∉ s.own u)
    (hnew : ∀ f ∈ t.own p, f ∈ s.own p ∨ (s.file f).ref = 0 ∨ (s.file f).type ≠ .none)
    (hproper : Proper t p)
    (hchild : ∀ u ≠ p, ∀ i, s.pc u = .fork p i →
      t.pc p = .embryo ∧ ∀ fd < NOFILE, i ≤ fd → t.ofile p fd = none)
    (hparent : ∀ u ≠ p, ∀ c i j, t.pc p = .fork c i → s.pc u ≠ .fork c j) : Inv t := by
  have hown : ∀ u ≠ p, t.own u = s.own u := fun u hu => by
    rw [State.own,State.own,hpc u hu,hofile u hu]
  have htype' : ∀ u ≠ p, ∀ f ∈ s.own u, (t.file f).type = (s.file f).type := fun u hu f hf =>
    (htype f).resolve_right fun hn => hn u hu hf
  refine ⟨h.refs.change p hown hrefs,hends,hpipe,hfree,fun u => ?_,fun u v c i j hu hv => ?_⟩
  · by_cases hu : u = p
    · exact hu ▸ hproper
    have hs := h.proper u
    refine ⟨fun fd hfd f hf => ?_,fun f hf => ?_,fun fd hfd hc => ?_,fun c i hc => ?_,fun q hq => ?_⟩
    · rw [hofile u hu] at hf
      rw [htype' u hu f (own_of_fd hfd hf)]
      exact hs.typed fd hfd f hf
    · rw [hpc u hu] at hf
      obtain ⟨hr,ht⟩ := hs.fresh f hf
      have hfu := own_of_fresh hf
      have hfp : f ∉ s.own p := fun hp => hu (h.refs.eq_of_one hr hfu hp)
      have hfp' : f ∉ t.own p := fun hp => by
        rcases hnew f hp with hp | hz | hn
        · exact hfp hp
        · omega
        · exact hn ht
      have := hrefs f
      rw [Multiset.count_eq_zero.mpr hfp,Multiset.count_eq_zero.mpr hfp'] at this
      exact ⟨by omega,by rw [htype' u hu f hfu,ht]⟩
    · rw [hofile u hu]
      rw [hpc u hu] at hc
      exact hs.closed fd hfd hc
    · rw [hpc u hu] at hc
      by_cases hcp : c = p
      · subst hcp
        exact hchild u hu i hc
      · rw [hpc c hcp,hofile c hcp]
        exact hs.child c i hc
    · rw [hpc u hu] at hq
      obtain ⟨fd,hfd,f,hf,ht⟩ := hs.io q hq
      exact ⟨fd,hfd,f,by rw [hofile u hu,hf],by rw [htype' u hu f (own_of_fd hfd hf),ht]⟩
  · by_cases hup : u = p
    · subst hup
      by_contra hvu
      rw [hpc v (Ne.symm hvu)] at hv
      exact hparent v (Ne.symm hvu) c i j hu hv
    · rw [hpc u hup] at hu
      by_cases hvp : v = p
      · subst hvp
        exact absurd hu (hparent u hup c j i hv)
      · rw [hpc v hvp] at hv
        exact h.parents u v c i j hu hv

omit [DecidableEq Proc] in
theorem ends_congr (h : Inv s) (hfile : ∀ f, (t.file f).ends = (s.file f).ends)
    (hpc : ∀ u, (t.pc u).ends = (s.pc u).ends) (hpipe : t.pipe = s.pipe) :
    Counted t.opens t.ends := by
  have hends : t.ends = s.ends := by
    funext i
    cases i with
    | inl f => exact hfile f
    | inr u => exact hpc u
  have hopens : t.opens = s.opens := by
    funext e
    rw [State.opens,State.opens,hpipe]
  rw [hends,hopens]
  exact h.ends

omit [DecidableEq Proc] in
theorem not_child (h : Inv s) (hp : s.pc p ≠ .embryo) (u : Proc) (i : ℕ) :
    s.pc u ≠ .fork p i := fun hu => hp ((h.proper u).child p i hu).1

/-- A process goes on with the references that it has. -/
theorem goto (h : Inv s) {pc : Pc Page Proc} (hheld : pc.held = (s.pc p).held)
    (hends : pc.ends = (s.pc p).ends) (hfresh : ∀ f ∈ pc.fresh, f ∈ (s.pc p).fresh)
    (hclosed : ∀ fd < NOFILE, fd < pc.closed → s.ofile p fd = none)
    (hchild : ∀ c i, pc = .fork c i →
      c ≠ p ∧ s.pc c = .embryo ∧ ∀ fd < NOFILE, i ≤ fd → s.ofile c fd = none)
    (hio : ∀ q, pc = .io q →
      ∃ fd < NOFILE, ∃ f, s.ofile p fd = some f ∧ (s.file f).type = .pipe q)
    (hfree : ∀ u ≠ p, ∀ i, s.pc u ≠ .fork p i)
    (hparent : ∀ u ≠ p, ∀ c i j, pc = .fork c i → s.pc u ≠ .fork c j) : Inv (s.goto p pc) := by
  have hpc : ∀ u ≠ p, (s.goto p pc).pc u = s.pc u := fun u hu => Function.update_of_ne hu _ _
  have hself : (s.goto p pc).pc p = pc := Function.update_self _ _ _
  have hown : (s.goto p pc).own p = s.own p := by
    rw [State.own,hself,hheld]
    rfl
  refine h.change p hpc (fun u _ => rfl) (fun f => by rw [hown]; rfl) ?_ h.pipe h.free
    (fun f => .inl rfl) (fun f hf => .inl (hown ▸ hf)) ?_ (fun u hu i hc => (hfree u hu i hc).elim) ?_
  · refine h.ends_congr (fun f => rfl) (fun u => ?_) rfl
    by_cases hu : u = p
    · rw [hu,hself,hends]
    · rw [hpc u hu]
  · have hs := h.proper p
    refine ⟨hs.typed,fun f hf => ?_,fun fd hfd hc => ?_,fun c i hc => ?_,fun q hq => ?_⟩
    · rw [hself] at hf
      exact hs.fresh f (hfresh f hf)
    · rw [hself] at hc
      exact hclosed fd hfd hc
    · rw [hself] at hc
      obtain ⟨hcp,he,hn⟩ := hchild c i hc
      exact ⟨by rw [hpc c hcp,he],hn⟩
    · rw [hself] at hq
      exact hio q hq
  · intro u hu c i j hc
    rw [hself] at hc
    exact hparent u hu c i j hc

/-- A process gives a reference up and keeps the rest. -/
theorem drop (h : Inv s) {x : File Page} {pc : Pc Page Proc} {k : Cont} {o : ℕ → Option Slot}
    (hpc : pc = .go k ∨ ∃ q w, pc = .closing q w k)
    (hown : s.own p = f ::ₘ (tally NOFILE o + k.held)) (href : x.ref + 1 = (s.file f).ref)
    (htype : x.type = (s.file f).type ∨ x.ref = 0) (hfree : x.ref = 0 → x.type = .none)
    (ho : ∀ fd g, o fd = some g → s.ofile p fd = some g)
    (hclosed : ∀ fd < NOFILE, fd < k.closed → o fd = none) (hp : s.pc p ≠ .embryo)
    (ht : t = { s with
      file := Function.update s.file f x
      ofile := Function.update s.ofile p o
      pc := Function.update s.pc p pc })
    (hends : Counted t.opens t.ends) : Inv t := by
  have hself : t.pc p = pc := by rw [ht]; exact Function.update_self _ _ _
  have hofile : t.ofile p = o := by rw [ht]; exact Function.update_self _ _ _
  have hfile : ∀ g ≠ f, t.file g = s.file g := fun g hg => by
    rw [ht]
    exact Function.update_of_ne hg _ _
  have hfile' : t.file f = x := by rw [ht]; exact Function.update_self _ _ _
  have hheld : pc.held = k.held ∧ pc.fresh = 0 ∧ pc.closed = k.closed ∧ (∀ c i, pc ≠ .fork c i) ∧
      ∀ q, pc ≠ .io q := by
    rcases hpc with rfl | ⟨q,w,rfl⟩ <;> exact ⟨rfl,rfl,rfl,nofun,nofun⟩
  obtain ⟨hheld,hfresh,hcl,hfork,hio⟩ := hheld
  have hown' : s.own p = f ::ₘ t.own p := by rw [hown,State.own,hself,hofile,hheld]
  have hf : f ∈ s.own p := by rw [hown']; exact Multiset.mem_cons_self _ _
  have hlast : x.ref = 0 → f ∉ t.own p := fun hx hm => by
    have := h.refs.count_le (a := f) p
    have := Multiset.count_pos.mpr hm
    rw [hown',Multiset.count_cons_self] at *
    omega
  refine h.change p (fun u hu => by rw [ht]; exact Function.update_of_ne hu _ _)
    (fun u hu => by rw [ht]; exact Function.update_of_ne hu _ _) (fun g => ?_) hends
    (by rw [ht]; exact h.pipe) (fun g hg => ?_) (fun g => ?_)
    (fun g hg => .inl (hown' ▸ Multiset.mem_cons_of_mem hg)) ?_
    (fun u _ i hc => (h.not_child hp u i hc).elim) (fun u _ c i j hc => (hfork c i (hself ▸ hc)).elim)
  · rw [hown']
    by_cases hg : g = f
    · subst hg
      rw [hfile',Multiset.count_cons_self]
      omega
    · rw [hfile g hg,Multiset.count_cons_of_ne hg]
  · by_cases hg' : g = f
    · subst hg'
      rw [hfile'] at hg ⊢
      exact hfree hg
    · rw [hfile g hg'] at hg ⊢
      exact h.free g hg
  · by_cases hg : g = f
    · subst hg
      rw [hfile']
      refine htype.imp_right fun hx u hu hm => hu ?_
      exact h.refs.eq_of_one (by omega) hm hf
    · exact .inl (by rw [hfile g hg])
  · refine ⟨fun fd hfd g hg => ?_,fun g hg => ?_,fun fd hfd hc => ?_,fun c i hc => ?_,fun q hq => ?_⟩
    · have hs := (h.proper p).typed fd hfd g (ho fd g (hofile ▸ hg))
      by_cases hgf : g = f
      · subst hgf
        rw [hfile']
        rcases htype with he | hx
        · rwa [he]
        · exact absurd (own_of_fd hfd hg) (hlast hx)
      · rwa [hfile g hgf]
    · rw [hself,hfresh] at hg
      exact absurd hg (Multiset.notMem_zero g)
    · rw [hself,hcl] at hc
      rw [hofile]
      exact hclosed fd hfd hc
    · exact absurd (hself ▸ hc) (hfork c i)
    · exact absurd (hself ▸ hq) (hio q)

/-- A process closes a file that it has, and goes on at `k` with the descriptors `o`. -/
theorem fileclose_post (h : Inv s) {k : Cont} {o : ℕ → Option Slot}
    (hown : s.own p = f ::ₘ (tally NOFILE o + k.held)) (hends : (s.pc p).ends = 0)
    (ho : ∀ fd g, o fd = some g → s.ofile p fd = some g)
    (hclosed : ∀ fd < NOFILE, fd < k.closed → o fd = none) (hp : s.pc p ≠ .embryo) :
    Post (fileclose p f k) { s with ofile := Function.update s.ofile p o } (fun _ t => Inv t)
      fun e _ => e = .disabled := by
  have hpos := h.refs.pos (show f ∈ s.own p by rw [hown]; exact Multiset.mem_cons_self _ _)
  simp only [fileclose,post_bind,post_get]
  rw [if_neg (by simpa using hpos.ne')]
  split
  · -- there are other references
    rename_i hr
    simp only [post_set]
    refine h.drop (x := { s.file f with ref := (s.file f).ref - 1 }) (.inl rfl) hown
      (show (s.file f).ref - 1 + 1 = (s.file f).ref by omega) (.inl rfl)
      (fun hz : (s.file f).ref - 1 = 0 => by omega) ho hclosed hp rfl
      (h.ends_congr (fun g => ?_) (fun u => ?_) rfl)
    · by_cases hg : g = f
      · subst hg
        simp [State.setFile,State.goto,File.ends]
      · simp [State.setFile,State.goto,hg]
    · by_cases hu : u = p
      · subst hu
        rw [hends]
        simp [State.goto,Pc.ends]
      · simp [State.goto,State.setFile,hu]
  · rename_i hr
    simp only [post_set]
    obtain ⟨hpc,hpe⟩ := File.closed_cases Proc (s.file f) k
    refine h.drop hpc hown (by simp only; omega) (.inr rfl) (fun _ => rfl) ho hclosed
      hp rfl ?_
    refine h.ends.change₂ (i := .inl f) (j := .inr p) nofun (fun i hf hp => ?_) fun e => ?_
    · rcases i with g | u
      · have hg : g ≠ f := fun hg => hf (hg ▸ rfl)
        simp [State.ends,State.setFile,State.goto,hg]
      · have hu : u ≠ p := fun hu => hp (hu ▸ rfl)
        simp [State.ends,State.setFile,State.goto,hu]
    · simp [State.ends,State.setFile,State.goto,hends,hpe,State.opens,File.ends]

theorem tally_update {o : ℕ → Option Slot} {fd : ℕ} (hfd : fd < NOFILE) (hn : o fd = none)
    (f : Slot) : tally NOFILE (Function.update o fd (some f)) = f ::ₘ tally NOFILE o := by
  have := tally_change (g := Function.update o fd (some f)) hfd fun j _ hj =>
    Function.update_of_ne hj _ _
  rw [hn,optional_none,add_zero,Function.update_self,optional_some,add_comm] at this
  exact this.trans (Multiset.singleton_add _ _)

omit [DecidableEq Page] [DecidableEq Proc] [Fintype Proc] in
theorem incref_ref (s : State Page Proc) (f g : Slot) :
    ((s.incref f).file g).ref = (s.file g).ref + if g = f then 1 else 0 := by
  by_cases hg : g = f
  · subst hg
    simp [State.incref,State.setFile]
  · simp [State.incref,State.setFile,hg]

omit [DecidableEq Page] [DecidableEq Proc] [Fintype Proc] in
theorem incref_type (s : State Page Proc) (f g : Slot) :
    ((s.incref f).file g).type = (s.file g).type ∧ ((s.incref f).file g).ends = (s.file g).ends := by
  by_cases hg : g = f
  · subst hg
    simp [State.incref,State.setFile,File.ends]
  · simp [State.incref,State.setFile,hg]

/-- Another reference to a file that a process has a descriptor for. -/
theorem share (h : Inv s) {fd fd' : ℕ} (hfd : fd < NOFILE) (hn : s.ofile u fd = none)
    (hfd' : fd' < NOFILE) (hf : s.ofile p fd' = some f) (hcl : (s.pc u).closed ≤ fd)
    (hchild : ∀ v ≠ u, ∀ i, s.pc v = .fork u i → fd < i) :
    Inv ((s.incref f).setFd u fd (some f)) := by
  have hofile : ((s.incref f).setFd u fd (some f)).ofile u =
      Function.update (s.ofile u) fd (some f) := Function.update_self _ _ _
  have hother : ∀ fd'' ≠ fd, ((s.incref f).setFd u fd (some f)).ofile u fd'' = s.ofile u fd'' :=
    fun fd'' hne => by rw [hofile,Function.update_of_ne hne]
  have htype := (h.proper p).typed fd' hfd' f hf
  have hown : ((s.incref f).setFd u fd (some f)).own u = f ::ₘ s.own u := by
    rw [State.own,hofile,tally_update hfd hn,Multiset.cons_add]
    rfl
  have href := incref_ref s f
  have hty := incref_type s f
  refine h.change u (fun v _ => rfl) (fun v hv => Function.update_of_ne hv _ _) (fun g => ?_)
    (h.ends_congr (fun g => (hty g).2) (fun v => rfl) rfl) h.pipe (fun g hg => ?_)
    (fun g => .inl (hty g).1) (fun g hg => ?_) ?_ (fun v hv i hc => ?_)
    (fun v hv c i j hc hc' => hv (h.parents v u c j i hc' hc))
  · rw [hown,Multiset.count_cons]
    change ((s.incref f).file g).ref + _ = _
    rw [href]
    split <;> omega
  · change ((s.incref f).file g).ref = 0 at hg
    rw [href] at hg
    exact (hty g).1.trans (h.free g (by omega))
  · rw [hown] at hg
    rcases Multiset.mem_cons.mp hg with rfl | hg
    · exact .inr (.inr htype)
    · exact .inl hg
  · have hs := h.proper u
    refine ⟨fun fd'' hlt g hg => ?_,fun g hg => ?_,fun fd'' hlt hc => ?_,fun c i hc => ?_,
      fun q hq => ?_⟩
    · refine (hty g).1.trans_ne ?_
      by_cases he : fd'' = fd
      · subst he
        rw [hofile,Function.update_self] at hg
        cases hg
        exact htype
      · rw [hother fd'' he] at hg
        exact hs.typed fd'' hlt g hg
    · obtain ⟨hr,ht⟩ := hs.fresh g hg
      have hgf : g ≠ f := fun he => htype (he ▸ ht)
      refine ⟨?_,(hty g).1.trans ht⟩
      change ((s.incref f).file g).ref = 1
      rw [href,if_neg hgf,hr]
    · have hc : fd'' < (s.pc u).closed := hc
      rw [hother fd'' (by omega)]
      exact hs.closed fd'' hlt hc
    · obtain ⟨he,hnone⟩ := hs.child c i hc
      have hcu : c ≠ u := fun hcu => by
        subst hcu
        rw [show s.pc c = .fork c i from hc] at he
        cases he
      refine ⟨he,fun fd'' hlt hi => ?_⟩
      change Function.update s.ofile u _ c fd'' = none
      rw [Function.update_of_ne hcu]
      exact hnone fd'' hlt hi
    · obtain ⟨fd'',hlt,g,hg,ht⟩ := hs.io q hq
      have hne : fd'' ≠ fd := fun he => by
        rw [he,hn] at hg
        cases hg
      exact ⟨fd'',hlt,g,by rw [hother fd'' hne,hg],(hty g).1.trans ht⟩
  · obtain ⟨he,hnone⟩ := (h.proper v).child u i hc
    refine ⟨he,fun fd'' hlt hi => ?_⟩
    have := hchild v hv i hc
    rw [hother fd'' (by omega)]
    exact hnone fd'' hlt hi

/-- A process gets a file that nobody refers to. -/
theorem take (h : Inv s) {pc : Pc Page Proc} (hf : (s.file f).ref = 0)
    (hheld : pc.held = f ::ₘ (s.pc p).held) (hends : (s.pc p).ends = 0 ∧ pc.ends = 0)
    (hfresh : ∀ g ∈ pc.fresh, g = f ∨ g ∈ (s.pc p).fresh) (hcl : pc.closed = 0)
    (hfork : ∀ c i, pc ≠ .fork c i) (hio : ∀ q, pc ≠ .io q) (hp : s.pc p ≠ .embryo) :
    Inv ((s.incref f).goto p pc) := by
  have hself : ((s.incref f).goto p pc).pc p = pc := Function.update_self _ _ _
  have hpc : ∀ u ≠ p, ((s.incref f).goto p pc).pc u = s.pc u := fun u hu =>
    Function.update_of_ne hu _ _
  have hown : ((s.incref f).goto p pc).own p = f ::ₘ s.own p := by
    rw [State.own,hself,hheld,Multiset.add_cons]
    rfl
  have href := incref_ref s f
  have hty := incref_type s f
  refine h.change p hpc (fun u _ => rfl) (fun g => ?_)
    (h.ends_congr (fun g => (hty g).2) (fun u => ?_) rfl) h.pipe (fun g hg => ?_)
    (fun g => .inl (hty g).1) (fun g hg => ?_) ?_
    (fun u _ i hc => (h.not_child hp u i hc).elim)
    (fun u _ c i j hc => (hfork c i (hself ▸ hc)).elim)
  · rw [hown,Multiset.count_cons]
    change ((s.incref f).file g).ref + _ = _
    rw [href]
    split <;> omega
  · by_cases hu : u = p
    · rw [hu,hself,hends.1,hends.2]
    · rw [hpc u hu]
  · change ((s.incref f).file g).ref = 0 at hg
    rw [href] at hg
    exact (hty g).1.trans (h.free g (by omega))
  · rw [hown] at hg
    rcases Multiset.mem_cons.mp hg with rfl | hg
    · exact .inr (.inl hf)
    · exact .inl hg
  · have hs := h.proper p
    refine ⟨fun fd hfd g hg => (hty g).1.trans_ne (hs.typed fd hfd g hg),fun g hg => ?_,
      fun fd hfd hc => ?_,fun c i hc => (hfork c i (hself ▸ hc)).elim,
      fun q hq => (hio q (hself ▸ hq)).elim⟩
    · rw [hself] at hg
      change ((s.incref f).file g).ref = 1 ∧ ((s.incref f).file g).type = .none
      rw [href,(hty g).1]
      rcases hfresh g hg with rfl | hg
      · exact ⟨by rw [hf,if_pos rfl],h.free g hf⟩
      · obtain ⟨hr,ht⟩ := hs.fresh g hg
        have hgf : g ≠ f := by
          rintro rfl
          omega
        exact ⟨by rw [hr,if_neg hgf],ht⟩
    · rw [hself,hcl] at hc
      omega

/-- A process gives its new files a type and keeps its references. -/
theorem assign (h : Inv s) {k : Cont} (hsame : ∀ f ∉ (s.pc p).fresh, t.file f = s.file f)
    (hnew : ∀ f ∈ (s.pc p).fresh, (t.file f).ref = (s.file f).ref ∧ (t.file f).type ≠ .none)
    (hown : tally NOFILE (t.ofile p) + k.held = s.own p)
    (ho : ∀ fd f, t.ofile p fd = some f → s.ofile p fd = some f ∨ f ∈ (s.pc p).fresh)
    (hk : k.closed = 0) (hp : s.pc p ≠ .embryo) (hpc : t.pc = Function.update s.pc p (.go k))
    (hofile : ∀ u ≠ p, t.ofile u = s.ofile u)
    (hpipe : ∀ q x, t.pipe q = some x → x.readopen = true ∨ x.writeopen = true)
    (hends : Counted t.opens t.ends) : Inv t := by
  have hself : t.pc p = .go k := by rw [hpc,Function.update_self]
  have hown' : t.own p = s.own p := by
    rw [← hown,State.own,hself]
    rfl
  have href : ∀ f, (t.file f).ref = (s.file f).ref := fun f => by
    by_cases hf : f ∈ (s.pc p).fresh
    · exact (hnew f hf).1
    · rw [hsame f hf]
  refine h.change p (fun u hu => by rw [hpc,Function.update_of_ne hu]) hofile
    (fun f => by rw [hown',href]) hends hpipe (fun f hf => ?_) (fun f => ?_)
    (fun f hf => .inl (hown' ▸ hf)) ?_ (fun u _ i hc => (h.not_child hp u i hc).elim)
    (fun u _ c i j hc => by rw [hself] at hc; cases hc)
  · rw [href] at hf
    have : f ∉ (s.pc p).fresh := fun hm => by
      have := ((h.proper p).fresh f hm).1
      omega
    rw [hsame f this]
    exact h.free f hf
  · by_cases hf : f ∈ (s.pc p).fresh
    · refine .inr fun u hu hm => hu ?_
      exact h.refs.eq_of_one ((h.proper p).fresh f hf).1 hm (own_of_fresh hf)
    · exact .inl (by rw [hsame f hf])
  · refine ⟨fun fd hfd f hf => ?_,fun f hf => ?_,fun fd hfd hc => ?_,fun c i hc => ?_,fun q hq => ?_⟩
    · by_cases hm : f ∈ (s.pc p).fresh
      · exact (hnew f hm).2
      · rw [hsame f hm]
        exact (h.proper p).typed fd hfd f ((ho fd f hf).resolve_right hm)
    · rw [hself] at hf
      exact absurd hf (Multiset.notMem_zero f)
    · rw [hself] at hc
      change fd < k.closed at hc
      omega
    · rw [hself] at hc
      cases hc
    · rw [hself] at hq
      cases hq

omit [DecidableEq Proc] in
/-- The end of a pipe that a process is about to close is open. -/
theorem exists_open (h : Inv s) {w : Bool} {k : Cont} (hp : s.pc p = .closing q w k) :
    ∃ x, s.pipe q = some x ∧ x.isOpen w = true := by
  have hm : (q,w) ∈ s.ends (.inr p) := by simp [State.ends,hp,Pc.ends]
  have := h.ends.pos hm
  rw [State.opens] at this
  cases hq : s.pipe q with
  | none =>
    rw [hq] at this
    cases this
  | some x =>
    refine ⟨x,rfl,?_⟩
    rw [hq] at this
    cases hx : x.isOpen w with
    | true => rfl
    | false => simp [hx] at this

theorem pipeclose_post (h : Inv s) {w : Bool} {k : Cont} (hp : s.pc p = .closing q w k) :
    Total (pipeclose q w) s fun _ t => Inv (t.goto p (.go k)) := by
  obtain ⟨x,hq,hx⟩ := h.exists_open hp
  simp only [pipeclose,Total,post_bind,post_get,hq,post_set]
  generalize hy : (if w = true then ({ x with writeopen := false } : Ends)
    else { x with readopen := false }) = y
  have hyw : ∀ v, y.isOpen v = if v = w then false else x.isOpen v := by
    subst hy
    intro v
    cases v <;> cases w <;> rfl
  generalize hz : (if y.readopen = false ∧ y.writeopen = false then none else some y) = z
  have hzv : ∀ v, (z.elim false fun x => x.isOpen v) = if v = w then false else x.isOpen v := by
    intro v
    rw [← hyw,← hz]
    split
    · rename_i hc
      cases v
      · exact hc.1.symm
      · exact hc.2.symm
    · rfl
  have hzo : ∀ x, z = some x → x.readopen = true ∨ x.writeopen = true := by
    rintro x rfl
    split at hz
    · cases hz
    · rename_i hc
      cases hz
      simpa [or_iff_not_imp_left] using hc
  have hpc : ∀ u ≠ p, ((s.setPipe q z).goto p (.go k)).pc u = s.pc u := fun u hu =>
    Function.update_of_ne hu _ _
  have hself : ((s.setPipe q z).goto p (.go k)).pc p = .go k := Function.update_self _ _ _
  have hown : ((s.setPipe q z).goto p (.go k)).own p = s.own p := by
    rw [State.own,State.own,hself,hp]
    rfl
  refine h.change p hpc (fun u _ => rfl) (fun f => by rw [hown]; rfl) ?_ (fun q' x hx => ?_) h.free
    (fun f => .inl rfl) (fun f hf => .inl (hown ▸ hf)) ?_
    (fun u _ i hc => (h.not_child (by rw [hp]; nofun) u i hc).elim)
    (fun u _ c i j hc => by rw [hself] at hc; cases hc)
  · refine h.ends.change (.inr p) (fun i hi => ?_) fun e => ?_
    · rcases i with f | u
      · rfl
      · have hu : u ≠ p := fun hu => hi (hu ▸ rfl)
        simp only [State.ends,Sum.elim_inr]
        rw [hpc u hu]
    · obtain ⟨q',v⟩ := e
      simp only [State.ends,Sum.elim_inr,hp,Pc.ends,State.opens,State.goto,State.setPipe]
      by_cases hqq : q' = q
      · subst hqq
        rw [Function.update_self,hzv,hq]
        by_cases hv : v = w
        · subst hv
          simp [hx]
        · simp [hv]
      · simp [hqq]
  · by_cases hqq : q' = q
    · subst hqq
      exact hzo x (by simpa [State.goto,State.setPipe] using hx)
    · exact h.pipe q' x (by simpa [State.goto,State.setPipe,hqq] using hx)
  · have hs := h.proper p
    refine ⟨hs.typed,fun f hf => ?_,fun fd hfd hc => ?_,fun c i hc => ?_,fun q hq => ?_⟩
    · rw [hself] at hf
      exact absurd hf (Multiset.notMem_zero f)
    · rw [hself] at hc
      exact hs.closed fd hfd (by rw [hp]; exact hc)
    · rw [hself] at hc
      cases hc
    · rw [hself] at hq
      cases hq

end Inv

/-! No interleaving of the system calls on descriptors panics in the file table or uses a page that is
not a pipe any more, and an end of a pipe is open as long as somebody has it. -/

section Steps

variable {s : State Page Proc} {p u : Proc} {f : Slot} {q : Page} {fd : ℕ}

/-- A step keeps the counts right, and it stops only where it is not possible. -/
abbrev Safe (m : M Page Proc Unit) (s : State Page Proc) : Prop :=
  Post m s (fun _ t => Inv t) fun e _ => e = .disabled

omit [Fintype Proc] in
theorem user_post {Q : Unit → State Page Proc → Prop} (h : s.pc p = .go .user → Q () s) :
    Post (user p) s Q fun e _ => e = .disabled := by
  simp only [user,post_bind,post_get]
  split
  · exact h ‹_›
  · rfl

omit [DecidableEq Page] [DecidableEq Proc] [Fintype Proc] in
theorem argfd_some (h : s.argfd p fd = some f) : fd < NOFILE ∧ s.ofile p fd = some f := by
  unfold State.argfd at h
  split at h
  · exact ⟨‹_›,h⟩
  · cases h

omit [DecidableEq Page] [DecidableEq Proc] [Fintype Proc] in
theorem fdalloc_some (h : s.fdalloc p = some fd) : fd < NOFILE ∧ s.ofile p fd = none :=
  ⟨List.mem_range.mp (List.mem_of_find?_eq_some h),by simpa using List.find?_some h⟩

theorem tally_clear {o : ℕ → Option Slot} (hfd : fd < NOFILE) (hf : o fd = some f) :
    tally NOFILE o = f ::ₘ tally NOFILE (Function.update o fd none) := by
  have := Inv.tally_update hfd (Function.update_self fd none o) f
  rw [← this,Function.update_idem,← hf,Function.update_eq_self]

theorem update_none {o : ℕ → Option Slot} {fd fd' : ℕ} {g : Slot}
    (h : Function.update o fd none fd' = some g) : o fd' = some g := by
  by_cases he : fd' = fd
  · subst he
    simp at h
  · rwa [Function.update_of_ne he] at h

theorem sys_close_safe (h : Inv s) : Safe (sys_close p fd) s := by
  simp only [Safe,sys_close,post_bind]
  refine user_post fun hp => ?_
  simp only [post_get]
  cases hf : s.argfd p fd with
  | none => exact h
  | some f =>
    obtain ⟨hfd,hf⟩ := argfd_some hf
    simp only [post_bind,post_set]
    refine h.fileclose_post ?_ (by rw [hp]; rfl) (fun _ _ => update_none) (fun _ _ => nofun)
      (by rw [hp]; nofun)
    rw [State.own,hp,tally_clear hfd hf]
    rfl

omit [DecidableEq Page] [DecidableEq Proc] [Fintype Proc] in
theorem filedup_post (hf : (s.file f).ref ≠ 0) {Q : Unit → State Page Proc → Prop}
    (h : Q () (s.incref f)) {E : Stop → State Page Proc → Prop} : Post (filedup f) s Q E := by
  simp only [filedup,post_bind,post_get]
  rw [if_neg (by omega)]
  exact h

theorem sys_dup_safe (h : Inv s) : Safe (sys_dup p fd) s := by
  simp only [Safe,sys_dup,post_bind]
  refine user_post fun hp => ?_
  simp only [post_get]
  cases hf : s.argfd p fd with
  | none => exact h
  | some f =>
    obtain ⟨hfd,hf⟩ := argfd_some hf
    cases hfd' : s.fdalloc p with
    | none => exact h
    | some fd' =>
      obtain ⟨hlt,hn⟩ := fdalloc_some hfd'
      simp only [post_bind,post_set]
      refine filedup_post (s := s.setFd p fd' (some f)) (h.refs.pos (Inv.own_of_fd hfd hf)).ne' ?_
      refine h.share hlt hn hfd hf (by rw [hp]; exact Nat.zero_le _) fun v _ i hv => ?_
      exact (h.not_child (by rw [hp]; nofun) v i hv).elim

theorem alloc_safe (found : Slot → Pc Page Proc) (failed : Cont) (hn : Inv (s.goto p (.go failed)))
    (hf : ∀ f, (s.file f).ref = 0 → Inv ((s.incref f).goto p (found f))) :
    Safe (alloc p found failed) s := by
  simp only [Safe,alloc,post_bind,post_get]
  cases hfa : s.filealloc with
  | none => exact hn
  | some f => exact hf f (by simpa using List.find?_some hfa)

theorem goto_user (h : Inv s) (hp : s.pc p ≠ .embryo) (hheld : (s.pc p).held = 0)
    (hends : (s.pc p).ends = 0) : Inv (s.goto p (.go .user)) :=
  h.goto hheld.symm hends.symm nofun (fun _ _ => nofun) nofun nofun
    (fun u _ i => h.not_child hp u i) fun _ _ _ _ _ => nofun

theorem sys_open_safe (h : Inv s) (readable writable : Bool) :
    Safe (sys_open p readable writable) s := by
  simp only [Safe,sys_open,post_bind]
  refine user_post fun hp => alloc_safe _ _ ?_ fun f hf => ?_
  · exact goto_user h (by rw [hp]; nofun) (by rw [hp]; rfl) (by rw [hp]; rfl)
  · exact h.take hf (by rw [hp]; rfl) ⟨by rw [hp]; rfl,rfl⟩
      (fun g hg => .inl (by simpa [Pc.fresh] using hg)) rfl nofun nofun (by rw [hp]; nofun)

theorem sys_pipe_safe (h : Inv s) : Safe (sys_pipe p) s := by
  simp only [Safe,sys_pipe,post_bind]
  refine user_post fun hp => alloc_safe _ _ ?_ fun f hf => ?_
  · exact goto_user h (by rw [hp]; nofun) (by rw [hp]; rfl) (by rw [hp]; rfl)
  · exact h.take hf (by rw [hp]; rfl) ⟨by rw [hp]; rfl,rfl⟩
      (fun g hg => .inl (by simpa [Pc.fresh] using hg)) rfl nofun nofun (by rw [hp]; nofun)

theorem update_some {o : ℕ → Option Slot} {fd fd' : ℕ} {g : Slot}
    (h : Function.update o fd (some f) fd' = some g) : o fd' = some g ∨ g = f := by
  by_cases he : fd' = fd
  · subst he
    rw [Function.update_self] at h
    exact .inr (Option.some.inj h).symm
  · rw [Function.update_of_ne he] at h
    exact .inl h

theorem opened_safe (h : Inv s) {readable writable : Bool}
    (hp : s.pc p = .opening f readable writable) : Safe (opened p f readable writable) s := by
  have hown : s.own p = f ::ₘ tally NOFILE (s.ofile p) := by
    rw [State.own,hp,add_comm]
    rfl
  simp only [Safe,opened,post_bind,post_get]
  cases hfd : s.fdalloc p with
  | none =>
    have := h.fileclose_post (k := .user) (o := s.ofile p)
      (hown.trans (congrArg (f ::ₘ ·) (add_zero _).symm))
      (by rw [hp]; rfl) (fun _ _ hf => hf) (fun _ _ => nofun) (by rw [hp]; nofun)
    rwa [Function.update_eq_self] at this
  | some fd =>
    obtain ⟨hlt,hn⟩ := fdalloc_some hfd
    let o := Function.update (s.ofile p) fd (some f)
    have hofile : Function.update s.ofile p o p = o := Function.update_self _ _ _
    have hfresh : ∀ g, g ∈ (s.pc p).fresh ↔ g = f := fun g => by simp [hp,Pc.fresh]
    have hnone := ((h.proper p).fresh f ((hfresh f).mpr rfl)).2
    refine h.assign (k := .user) (fun g hg => Function.update_of_ne (hg ∘ (hfresh g).mpr) _ _)
      (fun g hg => ?_) ?_ (fun fd' g hg => ?_) rfl (by rw [hp]; nofun) rfl
      (fun u hu => Function.update_of_ne hu _ _) h.pipe (h.ends_congr (fun g => ?_) (fun u => ?_) rfl)
    · rw [(hfresh g).mp hg]
      simp [State.goto,State.setFile,State.setFd]
    · rw [hown]
      change tally NOFILE (Function.update s.ofile p o p) + _ = _
      rw [hofile,Inv.tally_update hlt hn]
      exact add_zero _
    · have hg : Function.update s.ofile p o p fd' = some g := hg
      rw [hofile] at hg
      exact (update_some hg).imp_right (hfresh g).mpr
    · by_cases hg : g = f
      · subst hg
        simp [State.goto,State.setFile,State.setFd,File.ends,hnone]
      · simp [State.goto,State.setFile,State.setFd,hg]
    · by_cases hu : u = p
      · subst hu
        simp [State.goto,hp,Pc.ends]
      · simp [State.goto,State.setFile,State.setFd,hu]

theorem fileio_safe (h : Inv s) (able : File Page → Bool) (msg : String) :
    Safe (fileio able msg p fd) s := by
  simp only [Safe,fileio,post_bind]
  refine user_post fun hp => ?_
  simp only [post_get]
  cases hf : s.argfd p fd with
  | none => exact h
  | some f =>
    obtain ⟨hfd,hf⟩ := argfd_some hf
    dsimp only
    split
    · exact h
    · cases ht : (s.file f).type with
      | none => exact absurd ht ((h.proper p).typed fd hfd f hf)
      | inode => exact h
      | pipe q =>
        refine h.goto (by rw [hp]; rfl) (by rw [hp]; rfl) nofun (fun _ _ => nofun) nofun ?_
          (fun u _ i => h.not_child (by rw [hp]; nofun) u i) fun _ _ _ _ _ => nofun
        rintro q' ⟨⟩
        exact ⟨fd,hfd,f,hf,ht⟩

omit [DecidableEq Proc] in
/-- A pipe with a file in the table is there. -/
theorem pipe_ne_none (h : Inv s) (hf : (s.file f).type = .pipe q) : s.pipe q ≠ none := by
  intro hq
  have := h.ends.pos (i := .inl f) (a := (q,(s.file f).writable)) (by
    simp [State.ends,File.ends,hf])
  rw [State.opens,hq] at this
  cases this

theorem pipeio_safe (h : Inv s) (hp : s.pc p = .io q) (again : Bool) : Safe (pipeio p q again) s := by
  obtain ⟨fd,-,f,-,hf⟩ := (h.proper p).io q hp
  simp only [Safe,pipeio,post_bind,post_get]
  rw [if_neg (pipe_ne_none h hf)]
  split
  · exact h
  · exact goto_user h (by rw [hp]; nofun) (by rw [hp]; rfl) (by rw [hp]; rfl)

theorem fork_safe (h : Inv s) : Safe (fork p u) s := by
  simp only [Safe,fork,post_bind]
  refine user_post fun hp => ?_
  simp only [post_get]
  split
  · rename_i hu
    have hup : u ≠ p := by
      rintro rfl
      rw [hu] at hp
      cases hp
    have h₁ : Inv (s.goto u .embryo) :=
      h.goto (by rw [hu]; rfl) (by rw [hu]; rfl) nofun (fun _ _ => nofun) nofun nofun
        (fun v _ i => h.not_child (by rw [hu]; nofun) v i) fun _ _ _ _ _ => nofun
    have hp₁ : (s.goto u .embryo).pc p = .go .user := by
      rw [State.goto_pc,Function.update_of_ne hup.symm,hp]
    refine h₁.goto (by rw [hp₁]; rfl) (by rw [hp₁]; rfl) nofun (fun _ _ => nofun) ?_ nofun
      (fun v _ i => h₁.not_child (by rw [hp₁]; nofun) v i) ?_
    · rintro c i he
      cases he
      refine ⟨hup,Function.update_self _ _ _,fun fd hfd _ => ?_⟩
      exact (h.proper u).closed fd hfd (by rw [hu]; exact hfd)
    · rintro v hv c i j he hc
      cases he
      by_cases hvu : v = u
      · subst hvu
        rw [State.goto_pc,Function.update_self] at hc
        cases hc
      · rw [State.goto_pc,Function.update_of_ne hvu] at hc
        exact h.not_child (by rw [hu]; nofun) v j hc
  · rfl

theorem exit_safe (h : Inv s) : Safe (exit p) s := by
  simp only [Safe,exit,post_bind]
  refine user_post fun hp => ?_
  exact h.goto (by rw [hp]; rfl) (by rw [hp]; rfl) nofun (fun _ _ => nofun) nofun nofun
    (fun u _ i => h.not_child (by rw [hp]; nofun) u i) fun _ _ _ _ _ => nofun

theorem reap_safe (h : Inv s) : Safe (reap p) s := by
  simp only [Safe,reap,post_bind,post_get]
  split
  · rename_i hp
    exact h.goto (by rw [hp]; rfl) (by rw [hp]; rfl) nofun
      (fun fd hfd _ => (h.proper p).closed fd hfd (by rw [hp]; exact hfd)) nofun nofun
      (fun u _ i => h.not_child (by rw [hp]; nofun) u i) fun _ _ _ _ _ => nofun
  · rfl

theorem exitfd_safe (h : Inv s) (hp : s.pc p = .go (.exit fd)) : Safe (exitfd p fd) s := by
  have hcl : ∀ i < NOFILE, i < fd → s.ofile p i = none := fun i hi hlt =>
    (h.proper p).closed i hi (by rw [hp]; exact hlt)
  simp only [Safe,exitfd,post_bind,post_get]
  split
  · rename_i hfd
    cases hf : s.ofile p fd with
    | none =>
      refine h.goto (by rw [hp]; rfl) (by rw [hp]; rfl) nofun (fun i hi hlt => ?_) nofun nofun
        (fun u _ i => h.not_child (by rw [hp]; nofun) u i) fun _ _ _ _ _ => nofun
      change i < fd + 1 at hlt
      by_cases hif : i = fd
      · rw [hif,hf]
      · exact hcl i hi (by omega)
    | some f =>
      simp only [post_bind,post_set]
      refine h.fileclose_post ?_ (by rw [hp]; rfl) (fun _ _ => update_none) (fun i hi hlt => ?_)
        (by rw [hp]; nofun)
      · rw [State.own,hp,tally_clear hfd hf]
        rfl
      · change i < fd + 1 at hlt
        by_cases hif : i = fd
        · rw [hif,Function.update_self]
        · rw [Function.update_of_ne hif]
          exact hcl i hi (by omega)
  · refine h.goto (by rw [hp]; rfl) (by rw [hp]; rfl) nofun (fun i hi _ => hcl i hi (by omega)) nofun
      nofun (fun u _ i => h.not_child (by rw [hp]; nofun) u i) fun _ _ _ _ _ => nofun

/-- Both files of a new pipe get their type; the process has the descriptors `o` and goes on at
`k`. -/
theorem pipe_inv (h : Inv s) {f0 f1 : Slot} (hp : s.pc p = .pipe1 f0 f1) (hq : s.pipe q = none)
    {o : ℕ → Option Slot} {k : Cont} (hown : tally NOFILE o + k.held = s.own p)
    (ho : ∀ fd g, o fd = some g → s.ofile p fd = some g ∨ g = f0 ∨ g = f1) (hk : k.closed = 0)
    {x0 x1 : File Page} (hx0 : x0 = ⟨(s.file f0).ref,.pipe q,true,false⟩)
    (hx1 : x1 = ⟨(Function.update s.file f0 x0 f1).ref,.pipe q,false,true⟩) (ht : t = {
      file := Function.update (Function.update s.file f0 x0) f1 x1
      pipe := Function.update s.pipe q (some ⟨true,true⟩)
      ofile := Function.update s.ofile p o
      pc := Function.update s.pc p (.go k) }) : Inv t := by
  have hfresh : ∀ g, g ∈ (s.pc p).fresh ↔ g = f0 ∨ g = f1 := fun g => by simp [hp,Pc.fresh]
  have hf0 := (h.proper p).fresh f0 ((hfresh f0).mpr (.inl rfl))
  have hf1 := (h.proper p).fresh f1 ((hfresh f1).mpr (.inr rfl))
  have hne : f0 ≠ f1 := by
    rintro rfl
    have hle := h.refs.count_le (a := f0) p
    have : Multiset.count f0 (s.pc p).held = 2 := by simp [hp,Pc.held,Pc.fresh]
    rw [State.own,Multiset.count_add] at hle
    omega
  rw [Function.update_of_ne hne.symm] at hx1
  have hfile0 : t.file f0 = x0 := by rw [ht]; simp [hne]
  have hfile1 : t.file f1 = x1 := by rw [ht]; simp
  have hfile : ∀ g, g ≠ f0 → g ≠ f1 → t.file g = s.file g := fun g h0 h1 => by rw [ht]; simp [h0,h1]
  have hofile : t.ofile p = o := by rw [ht]; exact Function.update_self _ _ _
  refine h.assign (p := p) (k := k) (fun g hg => ?_) (fun g hg => ?_) (hofile ▸ hown)
    (fun fd g hg => ?_) hk (by rw [hp]; nofun) (by rw [ht])
    (fun u hu => by rw [ht]; exact Function.update_of_ne hu _ _) (fun q' x hx => ?_) ?_
  · rw [hfresh,not_or] at hg
    exact hfile g hg.1 hg.2
  · rcases (hfresh g).mp hg with rfl | rfl
    · rw [hfile0,hx0]
      exact ⟨rfl,nofun⟩
    · rw [hfile1,hx1]
      exact ⟨rfl,nofun⟩
  · rw [hofile] at hg
    exact (ho fd g hg).imp_right (hfresh g).mpr
  · rw [ht] at hx
    by_cases hqq : q' = q
    · subst hqq
      simp only [Function.update_self,Option.some.injEq] at hx
      exact .inl (hx ▸ rfl)
    · exact h.pipe q' x (by simpa [hqq] using hx)
  · refine h.ends.change₂ (i := .inl f0) (j := .inl f1) (fun he => hne (Sum.inl.inj he))
      (fun i h0 h1 => ?_) fun e => ?_
    · rcases i with g | u
      · simp only [State.ends,Sum.elim_inl]
        rw [hfile g (fun he => h0 (he ▸ rfl)) fun he => h1 (he ▸ rfl)]
      · by_cases hu : u = p
        · subst hu
          simp [State.ends,ht,hp,Pc.ends]
        · simp [State.ends,ht,hu]
    · obtain ⟨q',w⟩ := e
      have hpipe : t.pipe = Function.update s.pipe q (some ⟨true,true⟩) := by rw [ht]
      simp only [State.ends,Sum.elim_inl,hfile0,hfile1,hx0,hx1,File.ends,hf0.2,hf1.2,State.opens,
        hpipe]
      by_cases hqq : q' = q
      · subst hqq
        cases w <;> simp [hq,Ends.isOpen]
      · simp [hqq]

theorem pipealloc_safe (h : Inv s) {f0 f1 : Slot} (hp : s.pc p = .pipe1 f0 f1) (page : Option Page) :
    Safe (pipealloc p f0 f1 page) s := by
  have hown : s.own p = tally NOFILE (s.ofile p) + {f0,f1} := by rw [State.own,hp]; rfl
  cases page with
  | none =>
    exact h.goto (by rw [hp]; rfl) (by rw [hp]; rfl) nofun (fun _ _ => nofun) nofun nofun
      (fun u _ i => h.not_child (by rw [hp]; nofun) u i) fun _ _ _ _ _ => nofun
  | some q =>
    simp only [Safe,pipealloc,post_bind,post_get]
    split
    · rfl
    rename_i hq
    have hq : s.pipe q = none := by simpa using hq
    have hfail := pipe_inv h hp hq (o := s.ofile p) (k := .drop [f0,f1]) hown.symm
      (fun _ _ hg => .inl hg) rfl rfl rfl rfl
    rw [Function.update_eq_self] at hfail
    split
    · exact hfail
    rename_i fd0 hfd0
    obtain ⟨hlt0,hn0⟩ := fdalloc_some hfd0
    split
    · exact hfail
    rename_i fd1 hfd1
    obtain ⟨hlt1,hn1⟩ := fdalloc_some hfd1
    let o := Function.update (s.ofile p) fd0 (some f0)
    have hn1 : Function.update s.ofile p o p fd1 = none := hn1
    rw [Function.update_self] at hn1
    refine pipe_inv h hp hq (k := .user)
      (o := Function.update o fd1 (some f1)) ?_
      (fun fd g hg => ?_) rfl rfl rfl ?_
    · have hn0 : s.ofile p fd0 = none := hn0
      rw [Inv.tally_update hlt1 hn1,Inv.tally_update hlt0 hn0,hown,Multiset.cons_swap]
      simp only [Cont.held,add_zero,add_comm (tally NOFILE (s.ofile p)),Multiset.insert_eq_cons,
        Multiset.cons_add,Multiset.singleton_add]
    · rcases update_some hg with hg | rfl
      · exact (update_some hg).imp_right .inl
      · exact .inr (.inr rfl)
    · simp only [State.goto,State.setFd,State.setFile,State.setPipe,Function.update_self,
        Function.update_idem,o]

theorem forkfd_safe (h : Inv s) (hp : s.pc p = .fork u fd) : Safe (forkfd p u fd) s := by
  obtain ⟨hu,hnone⟩ := (h.proper p).child u fd hp
  have hup : u ≠ p := by
    rintro rfl
    rw [hu] at hp
    cases hp
  simp only [Safe,forkfd,post_bind,post_get]
  split
  · rename_i hfd
    have h₁ : Inv (s.goto p (.fork u (fd + 1))) := by
      refine h.goto (by rw [hp]; rfl) (by rw [hp]; rfl) nofun (fun _ _ => nofun) ?_ nofun
        (fun v _ i => h.not_child (by rw [hp]; nofun) v i) ?_
      · rintro c i ⟨⟩
        exact ⟨hup,hu,fun i hi hlt => hnone i hi (by omega)⟩
      · rintro v hv c i j ⟨⟩ hc
        exact hv (h.parents v p u j fd hc hp)
    cases hf : s.ofile p fd with
    | none => exact h₁
    | some f =>
      simp only [post_bind]
      refine filedup_post (h.refs.pos (Inv.own_of_fd hfd hf)).ne' ?_
      simp only [post_modify]
      refine h₁.share hfd (hnone fd hfd le_rfl) hfd hf ?_ fun v hv i hc => ?_
      · rw [State.goto_pc,Function.update_of_ne hup,hu]
        exact Nat.zero_le _
      · by_cases hvp : v = p
        · subst hvp
          rw [State.goto_pc,Function.update_self] at hc
          cases hc
          omega
        · rw [State.goto_pc,Function.update_of_ne hvp] at hc
          exact absurd (h.parents v p u i fd hc hp) hvp
  · have h₁ := goto_user h (p := p) (by rw [hp]; nofun) (by rw [hp]; rfl) (by rw [hp]; rfl)
    have hu₁ : (s.goto p (.go .user)).pc u = .embryo := by
      rw [State.goto_pc,Function.update_of_ne hup,hu]
    refine h₁.goto (by rw [hu₁]; rfl) (by rw [hu₁]; rfl) nofun (fun _ _ => nofun) nofun nofun
      (fun v _ i hc => ?_) fun _ _ _ _ _ => nofun
    by_cases hvp : v = p
    · subst hvp
      rw [State.goto_pc,Function.update_self] at hc
      cases hc
    · rw [State.goto_pc,Function.update_of_ne hvp] at hc
      exact hvp (h.parents v p u i fd hc hp)

theorem run_safe (h : Inv s) (page : Option Page) (again : Bool) : Safe (run p page again) s := by
  simp only [Safe,run,post_bind,post_get]
  split
  · rename_i hp
    exact goto_user h (by rw [hp]; nofun) (by rw [hp]; rfl) (by rw [hp]; rfl)
  · rename_i f fs hp
    have := h.fileclose_post (k := .drop fs) (f := f) (o := s.ofile p)
      (by rw [State.own,hp,← Multiset.add_cons]; rfl) (by rw [hp]; rfl) (fun _ _ hf => hf)
      (fun _ _ => nofun) (by rw [hp]; nofun)
    rwa [Function.update_eq_self] at this
  · rename_i fd hp
    exact exitfd_safe h hp
  · rename_i q w k hp
    simp only [post_bind,post_modify]
    exact (h.pipeclose_post hp).post fun _ _ ht => ht
  · rename_i f r w hp
    exact opened_safe h hp
  · rename_i f0 hp
    refine alloc_safe _ _ ?_ fun f hf => ?_
    · exact h.goto (by rw [hp]; rfl) (by rw [hp]; rfl) nofun (fun _ _ => nofun) nofun nofun
        (fun u _ i => h.not_child (by rw [hp]; nofun) u i) fun _ _ _ _ _ => nofun
    · refine h.take hf ?_ ⟨by rw [hp]; rfl,rfl⟩ (fun g hg => ?_) rfl nofun nofun (by rw [hp]; nofun)
      · rw [hp]
        exact Multiset.pair_comm f0 f
      · rw [hp]
        simpa [Pc.fresh,or_comm] using hg
  · rename_i f0 f1 hp
    exact pipealloc_safe h hp page
  · rename_i c fd hp
    exact forkfd_safe h hp
  · rename_i q hp
    exact pipeio_safe h hp again
  · rfl

theorem step_safe (h : Inv s) (op : Op Page Proc) : Safe (step op) s := by
  cases op with
  | sys_close p fd => exact sys_close_safe h
  | sys_dup p fd => exact sys_dup_safe h
  | sys_open p readable writable => exact sys_open_safe h readable writable
  | sys_pipe p => exact sys_pipe_safe h
  | fileread p fd => exact fileio_safe h _ _
  | filewrite p fd => exact fileio_safe h _ _
  | fork p child => exact fork_safe h
  | exit p => exact exit_safe h
  | reap p => exact reap_safe h
  | run p page again => exact run_safe h page again

end Steps

theorem Reachable.inv {s : State Page Proc} (h : Reachable s) : Inv s :=
  h.invariant (fun _ => Inv.start) fun op _ hs _ =>
    (step_safe hs op).mono (fun _ _ ht => ht) fun _ _ _ => trivial

/-- Two processes without descriptors; the first one is running. -/
def boot : State (Fin 2) (Fin 2) where
  file _ := { ref := 0, type := .none, readable := false, writable := false }
  pipe _ := none
  ofile _ _ := none
  pc p := if p.val = 0 then .go .user else .unused

theorem booted_boot : Booted boot where
  file _ := ⟨rfl,rfl⟩
  pipe _ := rfl
  ofile _ _ := rfl
  pc := by decide

/-- The first process makes a pipe and closes its read end; the second end is still open. -/
theorem exists_half_open : ∃ s : State (Fin 2) (Fin 2), Reachable s ∧
    decide (s.pipe 0 = some ⟨false,true⟩) = true :=
  exists_of_reaches (.init booted_boot) (by decide +kernel :
    reaches step (fun _ _ => True) (fun s => decide (s.pipe 0 = some ⟨false,true⟩))
      [.sys_pipe 0,.run 0 none false,.run 0 (some 0) false,.sys_close 0 0,.run 0 none false]
      boot = true)

/-- Somebody has an end of a pipe: a process has a file for it, or is about to close it. -/
def Holds (s : State Page Proc) (q : Page) (writable : Bool) : Prop :=
  (∃ p, ∃ f ∈ s.own p, (s.file f).type = .pipe q ∧ (s.file f).writable = writable) ∨
    ∃ p k, s.pc p = .closing q writable k

omit [DecidableEq Proc] in
theorem holds_iff {s : State Page Proc} (h : Inv s) (q : Page) (w : Bool) :
    Holds s q w ↔ ∃ x, s.pipe q = some x ∧ x.isOpen w = true := by
  have hopen : (∃ x, s.pipe q = some x ∧ x.isOpen w = true) ↔ s.opens (q,w) ≠ 0 := by
    rw [State.opens]
    cases s.pipe q with
    | none => simp
    | some x => simp
  rw [hopen,← h.ends.mem_iff]
  constructor
  · rintro (⟨p,f,hf,ht,hw⟩ | ⟨p,k,hp⟩)
    · exact ⟨.inl f,by simp [State.ends,File.ends,ht,hw]⟩
    · exact ⟨.inr p,by simp [State.ends,hp,Pc.ends]⟩
  · rintro ⟨f | p,hm⟩
    · obtain ⟨ht,hw⟩ : (s.file f).type = .pipe q ∧ (s.file f).writable = w := by
        cases ht : (s.file f).type <;> simp [State.ends,File.ends,ht] at hm
        obtain ⟨rfl,rfl⟩ := hm
        exact ⟨rfl,rfl⟩
      have hr : (s.file f).ref ≠ 0 := fun hr => by
        rw [h.free f hr] at ht
        cases ht
      obtain ⟨p,hf⟩ := h.refs.mem_iff.mpr hr
      exact .inl ⟨p,f,hf,ht,hw⟩
    · refine .inr ⟨p,?_⟩
      cases hp : s.pc p <;> simp [State.ends,hp,Pc.ends] at hm
      obtain ⟨rfl,rfl⟩ := hm
      exact ⟨_,rfl⟩

/-- An end of a pipe is open exactly while somebody has it, and the page of the pipe is free exactly
when nobody has either end. -/
theorem pipe_open_iff {s : State Page Proc} (h : Reachable s) (q : Page) :
    (∀ w, Holds s q w ↔ ∃ x, s.pipe q = some x ∧ x.isOpen w = true) ∧
      (s.pipe q = none ↔ ∀ w, ¬Holds s q w) := by
  refine ⟨holds_iff h.inv q,fun hq w hw => ?_,fun hn => ?_⟩
  · obtain ⟨x,hx,-⟩ := (holds_iff h.inv q w).mp hw
    rw [hq] at hx
    cases hx
  · by_contra hq
    obtain ⟨x,hx⟩ := Option.ne_none_iff_exists'.mp hq
    rcases h.inv.pipe q x hx with ho | ho
    · exact hn false ((holds_iff h.inv q false).mpr ⟨x,hx,ho⟩)
    · exact hn true ((holds_iff h.inv q true).mpr ⟨x,hx,ho⟩)

theorem pipe_open_iff_half_open : ∃ s : State (Fin 2) (Fin 2), Reachable s ∧ Holds s 0 true ∧
    ¬Holds s 0 false := by
  obtain ⟨s,hs,hp⟩ := exists_half_open
  have hp := of_decide_eq_true hp
  have h := (pipe_open_iff hs 0).1
  refine ⟨s,hs,(h true).mpr ⟨_,hp,rfl⟩,fun hh => ?_⟩
  obtain ⟨x,hx,ho⟩ := (h false).mp hh
  rw [hp] at hx
  cases hx
  cases ho

end ResumePointers.Fs.Files

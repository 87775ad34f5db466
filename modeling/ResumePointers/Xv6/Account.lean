import ResumePointers.Xv6.ExecSpec
import ResumePointers.Xv6.Proc
import Mathlib.Algebra.BigOperators.Group.Finset.Basic

/-! The pages that a kernel state accounts for: what the page directories of its live
processes name, and what the kernel keeps for itself. -/
namespace ResumePointers.Xv6

/-- The user pages of the process in a slot. -/
def Proc.users (x : Proc PageDir) : Multiset Frame :=
  if x.live then (x.pgdir.map PageDir.users).getD 0 else 0

/-- The pages that the kernel spends on the process in a slot. -/
def Proc.kern (x : Proc PageDir) : Multiset Frame :=
  (if x.state = .UNUSED then 0 else optional x.kstack) +
    if x.live then (x.pgdir.map PageDir.kern).getD 0 else 0

namespace Kernel

variable {κ : Type}

def users (s : Kernel κ) : Multiset Frame := ∑ p, (s.proc p).users

def kern (s : Kernel κ) : Multiset Frame := ∑ p, (s.proc p).kern + (s.pipes : Multiset Frame)

/-- The user pages of all processes but `p`. -/
def usersBut (s : Kernel κ) (p : Slot) : Multiset Frame :=
  ∑ q ∈ Finset.univ.erase p, (s.proc q).users

/-- The pages that the kernel spends on other things than `p`. -/
def kernBut (s : Kernel κ) (p : Slot) : Multiset Frame :=
  ∑ q ∈ Finset.univ.erase p, (s.proc q).kern + (s.pipes : Multiset Frame)

theorem users_eq (s : Kernel κ) (p : Slot) : s.users = (s.proc p).users + s.usersBut p :=
  (Finset.add_sum_erase _ _ (Finset.mem_univ p)).symm

theorem kern_eq (s : Kernel κ) (p : Slot) : s.kern = (s.proc p).kern + s.kernBut p := by
  rw [kern,kernBut,← Finset.add_sum_erase _ _ (Finset.mem_univ p),add_assoc]

@[simp] theorem setProc_proc (s : Kernel κ) (p : Slot) (x : Proc PageDir) :
    (s.setProc p x).proc = Function.update s.proc p x := rfl
@[simp] theorem setProc_mem (s : Kernel κ) (p : Slot) (x : Proc PageDir) :
    (s.setProc p x).mem = s.mem := rfl
@[simp] theorem setProc_pipes (s : Kernel κ) (p : Slot) (x : Proc PageDir) :
    (s.setProc p x).pipes = s.pipes := rfl
@[simp] theorem setProc_nextpid (s : Kernel κ) (p : Slot) (x : Proc PageDir) :
    (s.setProc p x).nextpid = s.nextpid := rfl
@[simp] theorem setProc_initproc (s : Kernel κ) (p : Slot) (x : Proc PageDir) :
    (s.setProc p x).initproc = s.initproc := rfl
@[simp] theorem setProc_ticks (s : Kernel κ) (p : Slot) (x : Proc PageDir) :
    (s.setProc p x).ticks = s.ticks := rfl

/-- Two states with the same processes elsewhere agree on the user pages elsewhere. -/
theorem usersBut_congr {s t : Kernel κ} {p : Slot} (h : ∀ q ≠ p, t.proc q = s.proc q) :
    t.usersBut p = s.usersBut p :=
  Finset.sum_congr rfl fun q hq => by rw [h q (Finset.ne_of_mem_erase hq)]

theorem kernBut_congr {s t : Kernel κ} {p : Slot} (h : ∀ q ≠ p, t.proc q = s.proc q)
    (hp : t.pipes = s.pipes) : t.kernBut p = s.kernBut p := by
  rw [kernBut,kernBut,hp]
  congr 1
  exact Finset.sum_congr rfl fun q hq => by rw [h q (Finset.ne_of_mem_erase hq)]

theorem users_of_update {s t : Kernel κ} {p : Slot} (h : ∀ q ≠ p, t.proc q = s.proc q) :
    t.users = (t.proc p).users + s.usersBut p := by
  rw [t.users_eq p,usersBut_congr h]

theorem kern_of_update {s t : Kernel κ} {p : Slot} (h : ∀ q ≠ p, t.proc q = s.proc q)
    (hp : t.pipes = s.pipes) : t.kern = (t.proc p).kern + s.kernBut p := by
  rw [t.kern_eq p,kernBut_congr h hp]

theorem users_congr {s t : Kernel κ} (h : ∀ q, (t.proc q).users = (s.proc q).users) :
    t.users = s.users :=
  Finset.sum_congr rfl fun q _ => h q

theorem kern_congr {s t : Kernel κ} (h : ∀ q, (t.proc q).kern = (s.proc q).kern)
    (hp : t.pipes = s.pipes) : t.kern = s.kern := by
  rw [kern,kern,hp,Finset.sum_congr rfl fun q _ => h q]

/-- Between `s` and `t`, process `p` has dealt with its own memory only. -/
structure Alone (p : Slot) (s t : Kernel κ) : Prop where
  proc : ∀ q ≠ p, t.proc q = s.proc q
  pipes : t.pipes = s.pipes
  state : (t.proc p).state = (s.proc p).state

namespace Alone

variable {p : Slot} {s s₁ t : Kernel κ}

theorem refl (p : Slot) (s : Kernel κ) : Alone p s s := ⟨fun _ _ => rfl,rfl,rfl⟩

theorem trans (h : Alone p s s₁) (h' : Alone p s₁ t) : Alone p s t where
  proc q hq := (h'.proc q hq).trans (h.proc q hq)
  pipes := h'.pipes.trans h.pipes
  state := h'.state.trans h.state

theorem live (h : Alone p s t) (hl : (s.proc p).live) : (t.proc p).live := by
  rwa [Proc.live,h.state]

theorem usersBut (h : Alone p s t) : t.usersBut p = s.usersBut p := usersBut_congr h.proc

theorem kernBut (h : Alone p s t) : t.kernBut p = s.kernBut p := kernBut_congr h.proc h.pipes

end Alone

theorem mem_users {s : Kernel κ} {f : Frame} :
    f ∈ s.users ↔ ∃ p, f ∈ (s.proc p).users := by
  simp [users,Multiset.mem_sum]

theorem mem_usersBut {s : Kernel κ} {p q : Slot} {f : Frame} (hq : q ≠ p)
    (hf : f ∈ (s.proc q).users) : f ∈ s.usersBut p :=
  Multiset.mem_sum.mpr ⟨q,Finset.mem_erase.mpr ⟨hq,Finset.mem_univ q⟩,hf⟩

/-- How many present entries for addresses below `KERNBASE` map `f`, over the page
directories of all live processes. -/
def mappings (s : Kernel κ) (f : Frame) : ℕ :=
  ∑ p, if (s.proc p).live then
    ((s.proc p).pgdir.map fun d =>
      ((Finset.range USERPAGES).filter fun v => (d.get v).map Pte.frame = some f).card).getD 0
  else 0

/-- `f` is a kernel stack, a page directory, a page table, or the page of a pipe. -/
def KernelHolds (s : Kernel κ) (f : Frame) : Prop :=
  f ∈ s.pipes ∨ ∃ p, ((s.proc p).state ≠ .UNUSED ∧ (s.proc p).kstack = some f) ∨
    ((s.proc p).live ∧ ∃ d, (s.proc p).pgdir = some d ∧
      (d.frame = f ∨ ∃ i < NPDENTRIES, ∃ pgtab, d.pde i = some pgtab ∧ pgtab.frame = f))

theorem mappings_eq (s : Kernel κ) (f : Frame) : mappings s f = s.users.count f := by
  rw [users,Multiset.count_sum']
  refine Finset.sum_congr rfl fun p _ => ?_
  unfold Proc.users
  split
  · cases (s.proc p).pgdir with
    | none => simp
    | some d =>
      rw [Option.map_some,Option.getD_some,Option.map_some,Option.getD_some,PageDir.users,
        count_tally]
  · simp

theorem mem_kern {s : Kernel κ} {f : Frame} : f ∈ s.kern ↔ KernelHolds s f := by
  rw [kern,Multiset.mem_add,Multiset.mem_coe,or_comm,KernelHolds,Multiset.mem_sum]
  refine or_congr_right (exists_congr fun p => ?_)
  simp only [Finset.mem_univ,true_and,Proc.kern,Multiset.mem_add]
  refine or_congr ?_ ?_
  · split
    · rename_i h; simp [h]
    · rename_i h; rw [mem_optional]; simp [h]
  · split
    · rename_i h
      cases (s.proc p).pgdir with
      | none => simp
      | some d =>
        simp [h,PageDir.kern,PageDir.tables,mem_tally,eq_comm]
    · rename_i h; simp [h]

end Kernel

namespace Proc

variable {x : Proc PageDir} {d : PageDir}

theorem users_of_live (h : x.live) (hd : x.pgdir = some d) : x.users = d.users := by
  rw [users,if_pos h,hd]; rfl

theorem users_of_not_live (h : ¬ x.live) : x.users = 0 := if_neg h

theorem kern_of_live (h : x.live) (hd : x.pgdir = some d) :
    x.kern = optional x.kstack + d.kern := by
  rw [kern,if_neg h.1,if_pos h,hd]; rfl

theorem kern_of_unused (h : x.state = .UNUSED) : x.kern = 0 := by
  rw [kern,if_pos h,if_neg fun hl => hl.1 h,add_zero]

theorem live_of_state {α : Type} {x : Proc α} {c : ProcState} (h : x.state = c)
    (h1 : c ≠ .UNUSED) (h2 : c ≠ .EMBRYO) : x.live := by
  subst h; exact ⟨h1,h2⟩

/-- Users and kernel pages depend on four fields only. -/
theorem users_congr {y : Proc PageDir} (hl : x.live ↔ y.live) (hd : x.pgdir = y.pgdir) :
    x.users = y.users := by
  rw [users,users,hd]; simp only [hl]

theorem kern_congr {y : Proc PageDir} (hl : x.live ↔ y.live)
    (hu : x.state = .UNUSED ↔ y.state = .UNUSED) (hd : x.pgdir = y.pgdir)
    (hk : x.kstack = y.kstack) : x.kern = y.kern := by
  rw [kern,kern,hd,hk]; simp only [hl,hu]

end Proc

namespace Ptable

variable {α : Type} {t : Ptable α} {p q : Slot}

theorem unused_state (h : t.unused = some p) : (t.proc p).state = .UNUSED := by
  simpa using List.find?_some h

theorem zombieChild_spec (h : t.zombieChild p = some q) :
    (t.proc q).parent = some p ∧ (t.proc q).state = .ZOMBIE := by
  simpa using List.find?_some h

/-- What may change in a slot while its process stays what it is: who is its parent, what it
waits for, and whether it sleeps, runs or has ended. -/
structure SameImage (x y : Proc α) : Prop where
  sz : y.sz = x.sz
  pgdir : y.pgdir = x.pgdir
  kstack : y.kstack = x.kstack
  pid : y.pid = x.pid
  killed : y.killed = x.killed
  allocLeft : y.allocLeft = x.allocLeft
  unused : y.state = .UNUSED ↔ x.state = .UNUSED
  embryo : y.state = .EMBRYO ↔ x.state = .EMBRYO

namespace SameImage

variable {x y z : Proc α}

theorem refl (x : Proc α) : SameImage x x := ⟨rfl,rfl,rfl,rfl,rfl,rfl,Iff.rfl,Iff.rfl⟩

theorem trans (h : SameImage x y) (h' : SameImage y z) : SameImage x z where
  sz := h'.sz.trans h.sz
  pgdir := h'.pgdir.trans h.pgdir
  kstack := h'.kstack.trans h.kstack
  pid := h'.pid.trans h.pid
  killed := h'.killed.trans h.killed
  allocLeft := h'.allocLeft.trans h.allocLeft
  unused := h'.unused.trans h.unused
  embryo := h'.embryo.trans h.embryo

theorem live (h : SameImage x y) : y.live ↔ x.live := by
  simp only [Proc.live,ne_eq,h.unused,h.embryo]

end SameImage

theorem wakeup1_same (t : Ptable α) (c : Chan) (q : Slot) :
    SameImage (t.proc q) ((t.wakeup1 c).proc q) := by
  dsimp only [wakeup1]
  split
  · rename_i h
    exact ⟨rfl,rfl,rfl,rfl,rfl,rfl,by simp [h.1],by simp [h.1]⟩
  · exact .refl _

theorem reparent_same (t : Ptable α) (p q : Slot) :
    SameImage (t.proc q) ((t.reparent p).proc q) := by
  dsimp only [reparent]
  split
  · exact ⟨rfl,rfl,rfl,rfl,rfl,rfl,Iff.rfl,Iff.rfl⟩
  · exact .refl _

theorem abandon_same (t : Ptable α) (p q : Slot) :
    SameImage (t.proc q) ((t.abandon p).proc q) := by
  have horph := reparent_same t p q
  unfold abandon
  split
  · exact horph
  · split
    · exact horph.trans (wakeup1_same _ _ q)
    · exact horph

/-- `exit` moves processes between states and parents; it takes and gives no page. -/
theorem exit_same (hp : (t.proc p).live) (q : Slot) :
    SameImage (t.proc q) ((t.exit p).proc q) := by
  have hwoken : ∃ woken : Ptable α, t.exit p = (woken.abandon p).setProc p
      { (woken.abandon p).proc p with state := .ZOMBIE } ∧
      ∀ q, SameImage (t.proc q) (woken.proc q) := by
    unfold exit
    cases (t.proc p).parent with
    | none => exact ⟨t,rfl,fun _ => .refl _⟩
    | some r => exact ⟨t.wakeup1 (.proc r),rfl,wakeup1_same t _⟩
  obtain ⟨woken,hexit,hsame⟩ := hwoken
  have hleft := fun q => (hsame q).trans (abandon_same woken p q)
  rw [hexit]
  dsimp only [setProc]
  by_cases hq : q = p
  · subst hq
    rw [Function.update_self]
    have h := hleft q
    exact ⟨h.sz,h.pgdir,h.kstack,h.pid,h.killed,h.allocLeft,
      by simp [hp.1],by simp [hp.2]⟩
  · rw [Function.update_of_ne hq]
    exact hleft q

theorem sleep_same (hp : (t.proc p).live) (q : Slot) :
    SameImage (t.proc q) ((t.sleep p).proc q) := by
  dsimp only [sleep,setProc]
  by_cases hq : q = p
  · subst hq
    rw [Function.update_self]
    exact ⟨rfl,rfl,rfl,rfl,rfl,rfl,by simp [hp.1],by simp [hp.2]⟩
  · rw [Function.update_of_ne hq]
    exact .refl _

end Ptable

end ResumePointers.Xv6

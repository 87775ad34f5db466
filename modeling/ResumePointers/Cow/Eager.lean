import ResumePointers.Cow.Kernel

/-! Fork by copying at once, as an abstract machine: every process has pages of its own,
`fork` copies those below `sz`, and there is always room. -/
namespace ResumePointers.Cow

open Xv6

/-- A page as its process sees it. -/
structure UserPage where
  user : Bool
  bytes : Page

/-- The memory of a process, page by page. -/
abbrev Mem := ℕ → Option UserPage

abbrev Eager := Ptable Mem

namespace Eager

def mem (t : Eager) (p : Slot) : Mem := (t.proc p).pgdir.getD fun _ => none

def fork (t : Eager) (p : Slot) : ℤ × Eager :=
  match t.unused with
  | none => (-1,t)
  | some np =>
    let copy : Mem := fun v => if v < pages (t.proc p).sz then t.mem p v else none
    let child := { t.proc np with
      state := .RUNNABLE, pid := t.nextpid, allocLeft := (t.proc p).allocLeft
      pgdir := some copy, sz := (t.proc p).sz, parent := some p }
    (t.nextpid,{ t.setProc np child with nextpid := t.nextpid + 1 })

def resize (t : Eager) (p : Slot) (mem : Mem) (sz : ℕ) : ℤ × Eager :=
  (if sz = 0 then -1 else 0,
   t.setProc p { t.proc p with
     pgdir := some mem, sz := if sz = 0 then (t.proc p).sz else sz })

def growproc (t : Eager) (p : Slot) (n : ℤ) : ℤ × Eager :=
  let sz := (t.proc p).sz
  let newsz := uint (sz + n)
  if n = 0 then (0,t)
  else if 0 < n then
    if KERNBASE ≤ newsz then (-1,t)
    else t.resize p (fun v =>
      if pages sz ≤ v ∧ v < pages newsz then some ⟨true,zeroPage⟩ else t.mem p v) (max sz newsz)
  else t.resize p (fun v =>
    if pages newsz ≤ v ∧ v < pages sz then none else t.mem p v) (min sz newsz)

/-- `none` for a sleeping process. -/
def wait (t : Eager) (p : Slot) : Option ℤ × Eager :=
  match t.zombieChild p with
  | some q => (some (t.proc q).pid,t.setProc q { t.proc q with
      pgdir := none, pid := 0, parent := none, killed := false, state := .UNUSED })
  | none =>
    if ¬ t.havekids p ∨ (t.proc p).killed then (some (-1),t) else (none,t.sleep p)

/-- The byte at `va`, if the process may look there. -/
def read (t : Eager) (p : Slot) (va : ℕ) : Option UInt8 :=
  match t.mem p (pageOf va) with
  | none => none
  | some pg => if pg.user then some (pg.bytes (va % PGSIZE)) else none

def write (t : Eager) (p : Slot) (va : ℕ) (b : UInt8) : Eager :=
  match t.mem p (pageOf va) with
  | none => t
  | some pg => t.setProc p { t.proc p with
      pgdir := some (Function.update (t.mem p) (pageOf va)
        (some { pg with bytes := Function.update pg.bytes (va % PGSIZE) b })) }

def whenRunnable (t : Eager) (p : Slot) (r : Option ℤ × Eager) : Option ℤ × Eager :=
  if (t.proc p).state = .RUNNABLE then r else (none,t)

/-- The operations of a family of processes. A pipe takes no page of theirs, and `exec` is
none of them. -/
def step : Op → Eager → Option ℤ × Eager
  | .load p va, t => t.whenRunnable p ((t.read p va.toNat).map fun b => (b.toNat : ℤ),t)
  | .store p va b, t => t.whenRunnable p ((t.read p va.toNat).map fun _ => 0,t.write p va.toNat b)
  | .fork p, t => t.whenRunnable p (some (t.fork p).1,(t.fork p).2)
  | .growproc p n, t =>
    t.whenRunnable p (some (t.growproc p n.toInt).1,(t.growproc p n.toInt).2)
  | .exit p, t => t.whenRunnable p (none,t.exit p)
  | .wait p, t => t.whenRunnable p (t.wait p)
  | .exec _ _ _, t => (none,t)
  | .pipealloc p, t => t.whenRunnable p (some 0,t)
  | .pipeclose p _, t => t.whenRunnable p (some 0,t)

end Eager

/-- What the abstract machine knows about. -/
def Op.family : Op → Prop
  | .exec _ _ _ => False
  | _ => True

/-! What scheduling looks at and changes is the same in both machines. -/

section Agree

variable {α β : Type}

/-- Two slots agree on the fields that `wakeup1`, `exit`, `wait` and `sleep` go by. -/
structure Agree (x : Proc α) (y : Proc β) : Prop where
  state : x.state = y.state
  parent : x.parent = y.parent
  chan : x.chan = y.chan

structure Agrees (t : Ptable α) (u : Ptable β) : Prop where
  proc : ∀ q, Agree (t.proc q) (u.proc q)
  initproc : t.initproc = u.initproc
  nextpid : t.nextpid = u.nextpid
  ticks : t.ticks = u.ticks

namespace Agrees

variable {t : Ptable α} {u : Ptable β}

theorem wakeup1 (h : Agrees t u) (c : Chan) : Agrees (t.wakeup1 c) (u.wakeup1 c) where
  proc q := by
    have hq := h.proc q
    dsimp only [Ptable.wakeup1]
    rw [hq.state,hq.chan]
    split
    · exact ⟨rfl,hq.parent,rfl⟩
    · exact hq
  initproc := h.initproc
  nextpid := h.nextpid
  ticks := h.ticks

theorem reparent (h : Agrees t u) (p : Slot) : Agrees (t.reparent p) (u.reparent p) where
  proc q := by
    have hq := h.proc q
    dsimp only [Ptable.reparent]
    rw [hq.parent]
    split
    · exact ⟨hq.state,h.initproc,hq.chan⟩
    · exact hq
  initproc := h.initproc
  nextpid := h.nextpid
  ticks := h.ticks

theorem abandon (h : Agrees t u) (p : Slot) : Agrees (t.abandon p) (u.abandon p) := by
  have hz : (∃ q, (t.proc q).parent = some p ∧ (t.proc q).state = .ZOMBIE) ↔
      ∃ q, (u.proc q).parent = some p ∧ (u.proc q).state = .ZOMBIE := by
    simp only [fun q => (h.proc q).parent,fun q => (h.proc q).state]
  unfold Ptable.abandon
  rw [h.initproc]
  cases u.initproc with
  | none => exact h.reparent p
  | some i =>
    dsimp only
    by_cases hc : ∃ q, (u.proc q).parent = some p ∧ (u.proc q).state = .ZOMBIE
    · rw [if_pos hc,if_pos (hz.mpr hc)]
      exact (h.reparent p).wakeup1 _
    · rw [if_neg hc,if_neg fun ht => hc (hz.mp ht)]
      exact h.reparent p

theorem setProc (h : Agrees t u) (p : Slot) {x : Proc α} {y : Proc β} (hxy : Agree x y) :
    Agrees (t.setProc p x) (u.setProc p y) where
  proc q := by
    dsimp only [Ptable.setProc]
    by_cases hq : q = p
    · subst hq; rwa [Function.update_self,Function.update_self]
    · rw [Function.update_of_ne hq,Function.update_of_ne hq]
      exact h.proc q
  initproc := h.initproc
  nextpid := h.nextpid
  ticks := h.ticks

theorem exit (h : Agrees t u) (p : Slot) : Agrees (t.exit p) (u.exit p) := by
  have hw : Agrees
      (match (t.proc p).parent with | none => t | some q => t.wakeup1 (.proc q))
      (match (u.proc p).parent with | none => u | some q => u.wakeup1 (.proc q)) := by
    rw [(h.proc p).parent]
    split
    · exact h
    · exact h.wakeup1 _
  have ha := hw.abandon p
  unfold Ptable.exit
  exact ha.setProc p ⟨rfl,(ha.proc p).parent,(ha.proc p).chan⟩

theorem sleep (h : Agrees t u) (p : Slot) : Agrees (t.sleep p) (u.sleep p) :=
  h.setProc p ⟨rfl,(h.proc p).parent,rfl⟩

theorem unused (h : Agrees t u) : t.unused = u.unused := by
  simp only [Ptable.unused,fun q => (h.proc q).state]

theorem zombieChild (h : Agrees t u) (p : Slot) : t.zombieChild p = u.zombieChild p := by
  simp only [Ptable.zombieChild,fun q => (h.proc q).state,fun q => (h.proc q).parent]

theorem havekids (h : Agrees t u) (p : Slot) : t.havekids p ↔ u.havekids p := by
  simp only [Ptable.havekids,fun q => (h.proc q).parent]

end Agrees

end Agree

/-- The memory that a page directory means. -/
def view (k : Kmem) (d : PageDir) : Mem := fun v =>
  if v < USERPAGES then (d.get v).map fun pte => ⟨pte.u,k.bytes pte.frame⟩ else none

/-- A slot of the kernel as the abstract machine has it. -/
def absProc (k : Kmem) (x : Proc PageDir) : Proc Mem where
  sz := x.sz
  pgdir := if x.live then x.pgdir.map (view k) else none
  kstack := none
  state := x.state
  pid := x.pid
  parent := x.parent
  chan := x.chan
  killed := x.killed
  allocLeft := x.allocLeft

def eager (s : Kernel Kmem) : Eager where
  proc p := absProc s.mem (s.proc p)
  initproc := s.initproc
  nextpid := s.nextpid
  ticks := s.ticks

theorem agrees_eager (s : Kernel Kmem) : Agrees s.toPtable (eager s) :=
  ⟨fun _ => ⟨rfl,rfl,rfl⟩,rfl,rfl,rfl⟩

/-- Pages that keep their bytes keep their meaning. -/
theorem view_congr {k k' : Kmem} {d d' : PageDir}
    (hd : ∀ v < USERPAGES, (d'.get v).map (fun pte => (pte.u,pte.frame)) =
      (d.get v).map fun pte => (pte.u,pte.frame))
    (hk : ∀ g ∈ d.users, k'.bytes g = k.bytes g) : view k' d' = view k d := by
  funext v
  unfold view
  split
  · rename_i hv
    have h := hd v hv
    cases hget : d.get v with
    | none =>
      rw [hget,Option.map_none,Option.map_eq_none_iff] at h
      rw [h]; rfl
    | some pte =>
      rw [hget,Option.map_some,Option.map_eq_some_iff] at h
      obtain ⟨pte',hget',heq⟩ := h
      rw [Prod.mk.injEq] at heq
      rw [hget',Option.map_some,Option.map_some,heq.1,heq.2,
        hk pte.frame (frame_mem_users hv hget)]
  · rfl

theorem absProc_congr {k k' : Kmem} {x : Proc PageDir}
    (h : ∀ g ∈ x.users, k'.bytes g = k.bytes g) : absProc k' x = absProc k x := by
  unfold absProc
  by_cases hl : x.live
  · rw [if_pos hl,if_pos hl]
    cases hd : x.pgdir with
    | none => rfl
    | some d =>
      rw [Proc.users_of_live hl hd] at h
      rw [Option.map_some,Option.map_some,view_congr (fun _ _ => rfl) h]
  · rw [if_neg hl,if_neg hl]

/-- A step that touches slot `p` only, and no page of the others. -/
theorem eager_update {s t : Kernel Kmem} {p : Slot} (hq : ∀ q ≠ p, t.proc q = s.proc q)
    (hk : ∀ g ∈ s.usersBut p, t.mem.bytes g = s.mem.bytes g) :
    eager t = { (eager s).setProc p (absProc t.mem (t.proc p)) with
      initproc := t.initproc, nextpid := t.nextpid, ticks := t.ticks } := by
  ext1
  · funext q
    by_cases hqp : q = p
    · subst hqp; simp [eager,Ptable.setProc]
    · simp only [eager,Ptable.setProc,Function.update_of_ne hqp]
      rw [hq q hqp]
      exact absProc_congr fun g hg => hk g (Kernel.mem_usersBut hqp hg)
  all_goals rfl

/-- Scheduling commutes with the abstraction. -/
theorem eager_same {s : Kernel Kmem} {t : Ptable PageDir} {u : Eager} (ha : Agrees t u)
    (ht : ∀ q, Ptable.SameImage (s.proc q) (t.proc q))
    (hu : ∀ q, Ptable.SameImage ((eager s).proc q) (u.proc q)) :
    eager { s with toPtable := t } = u := by
  ext1
  · funext q
    have h1 := ht q
    have h2 := hu q
    have h3 := ha.proc q
    have hpg : (u.proc q).pgdir = if (t.proc q).live then (t.proc q).pgdir.map (view s.mem)
        else none := by
      rw [h2.pgdir,h1.pgdir]
      change (if (s.proc q).live then _ else _) = _
      simp only [h1.live]
    change absProc s.mem (t.proc q) = u.proc q
    unfold absProc
    cases hx : u.proc q with
    | mk sz pgdir kstack state pid parent chan killed allocLeft =>
      rw [hx] at h2 h3 hpg
      simp only [Proc.mk.injEq]
      exact ⟨h1.sz.trans h2.sz.symm,hpg.symm,h2.kstack.symm,h3.state,h1.pid.trans h2.pid.symm,
        h3.parent,h3.chan,h1.killed.trans h2.killed.symm,h1.allocLeft.trans h2.allocLeft.symm⟩
  · exact ha.initproc
  · exact ha.nextpid
  · exact ha.ticks

end ResumePointers.Cow

import ResumePointers.Lib.Simulation
import ResumePointers.Lib.Threads
import ResumePointers.Lib.Window

/-! Pipes (`pipe.c`): any number of threads in `pipewrite` and `piperead`, one iteration of a loop
after another, with closes of the ends and kills at any time. -/
namespace ResumePointers.Fs.Pipe

abbrev Byte := BitVec 8

def PIPESIZE : ℕ := 512

/-- Where a thread is: it waits for the lock, holds it, or sleeps on `nread` or `nwrite`. A writer
has the bytes that are left of its `n`, a reader those that it has got. -/
inductive Pc
  | user
  | write_acquire (n : ℕ) (rest : List Byte)
  | writing (n : ℕ) (rest : List Byte)
  | write_asleep (n : ℕ) (rest : List Byte)
  | read_acquire (n : ℕ)
  | reading (n : ℕ)
  | copying (n : ℕ) (got : List Byte)
  | read_asleep (n : ℕ)
deriving DecidableEq

variable {Tid : Type}

/-- `struct pipe` with the owner of its lock, and of each thread where it is and whether it is
killed. -/
structure State (Tid : Type) where
  data : List Byte
  nread : BitVec 32
  nwrite : BitVec 32
  readopen : Bool
  writeopen : Bool
  owner : Option Tid
  killed : Tid → Bool
  pc : Tid → Pc

/-- What an operation does that can be seen: a byte is stored, or a call returns, where `none` is the
result -1. -/
inductive Event
  | sent (b : Byte)
  | wrote (n : Option ℕ)
  | read (got : Option (List Byte))
deriving DecidableEq

inductive Op (Tid : Type)
  | pipewrite (t : Tid) (addr : List Byte)
  | piperead (t : Tid) (n : ℕ)
  | acquire (t : Tid)
  | run (t : Tid)
  | kill (t : Tid)
  | pipeclose (writable : Bool)

abbrev M (Tid : Type) := EStateM Unit (State Tid)

/-- `wakeup(&nread)`. -/
def Pc.wakeReader : Pc → Pc
  | .read_asleep n => .read_acquire n
  | pc => pc

/-- `wakeup(&nwrite)`. -/
def Pc.wakeWriter : Pc → Pc
  | .write_asleep n rest => .write_acquire n rest
  | pc => pc

namespace State

def full (s : State Tid) : Bool := s.nwrite == s.nread + PIPESIZE

def empty (s : State Tid) : Bool := s.nread == s.nwrite

variable [DecidableEq Tid]

def goto (s : State Tid) (t : Tid) (pc : Pc) : State Tid := { s with pc := Function.update s.pc t pc }

/-- Give the lock back and go on at `pc`. -/
def release (s : State Tid) (t : Tid) (pc : Pc) : State Tid := { s.goto t pc with owner := none }

omit [DecidableEq Tid] in
def wakeReaders (s : State Tid) : State Tid := { s with pc := fun u => (s.pc u).wakeReader }

omit [DecidableEq Tid] in
def wakeWriters (s : State Tid) : State Tid := { s with pc := fun u => (s.pc u).wakeWriter }

end State

variable [DecidableEq Tid]

/-- An iteration of the loop of `pipewrite`. -/
def writeStep (t : Tid) (n : ℕ) : List Byte → M Tid (Option Event)
  | [] => do
    modify fun s => s.wakeReaders.release t .user
    pure (some (.wrote (some n)))
  | b::rest => do
    let s ← get
    if s.full then
      if s.readopen = false ∨ s.killed t then
        set (s.release t .user)
        pure (some (.wrote none))
      else
        set (s.wakeReaders.release t (.write_asleep n (b::rest)))
        pure none
    else
      set { s.goto t (.writing n rest) with
        data := s.data.set (s.nwrite.toNat % PIPESIZE) b
        nwrite := s.nwrite + 1 }
      pure (some (.sent b))

/-- An iteration of the first loop of `piperead`. -/
def readStep (t : Tid) (n : ℕ) : M Tid (Option Event) := do
  let s ← get
  if s.empty ∧ s.writeopen then
    if s.killed t then
      set (s.release t .user)
      pure (some (.read none))
    else
      set (s.release t (.read_asleep n))
      pure none
  else
    set (s.goto t (.copying n []))
    pure none

/-- An iteration of the second loop of `piperead`. -/
def copyStep (t : Tid) (n : ℕ) (got : List Byte) : M Tid (Option Event) := do
  let s ← get
  if got.length < n ∧ ¬ s.empty then
    set { s.goto t (.copying n (got ++ [s.data.getD (s.nread.toNat % PIPESIZE) 0])) with
      nread := s.nread + 1 }
    pure none
  else
    set (s.wakeWriters.release t .user)
    pure (some (.read (some got)))

def acquire (t : Tid) : M Tid (Option Event) := do
  let s ← get
  if s.owner = none then
    match s.pc t with
    | .write_acquire n rest => set { s.goto t (.writing n rest) with owner := some t }
    | .read_acquire n => set { s.goto t (.reading n) with owner := some t }
    | _ => throw ()
    pure none
  else throw ()

def call (t : Tid) (pc : Pc) : M Tid (Option Event) := do
  let s ← get
  if s.pc t = .user then
    set (s.goto t pc)
    pure none
  else throw ()

def run (t : Tid) : M Tid (Option Event) := do
  match (← get).pc t with
  | .writing n rest => writeStep t n rest
  | .reading n => readStep t n
  | .copying n got => copyStep t n got
  | _ => throw ()

/-- A thread that sleeps is woken by a kill. -/
def kill (t : Tid) : M Tid (Option Event) := do
  modify fun s => { s.goto t (s.pc t).wakeReader.wakeWriter with
    killed := Function.update s.killed t true }
  pure none

omit [DecidableEq Tid] in
def pipeclose (writable : Bool) : M Tid (Option Event) := do
  let s ← get
  if s.owner = none then
    if writable then set { s.wakeReaders with writeopen := false }
    else set { s.wakeWriters with readopen := false }
    pure none
  else throw ()

def step : Op Tid → M Tid (Option Event)
  | .pipewrite t addr => call t (.write_acquire addr.length addr)
  | .piperead t n => call t (.read_acquire n)
  | .acquire t => acquire t
  | .run t => run t
  | .kill t => kill t
  | .pipeclose writable => pipeclose writable

/-- A pipe from `pipealloc`, before any thread has made a call. -/
structure Fresh (s : State Tid) : Prop where
  data : s.data.length = PIPESIZE
  nread : s.nread = 0
  nwrite : s.nwrite = 0
  readopen : s.readopen = true
  writeopen : s.writeopen = true
  owner : s.owner = none
  pc : ∀ t, s.pc t = .user

/-- The runs of the pipe, with what is seen of them. -/
abbrev Runs : State Tid → List (Op Tid × Option Event) → State Tid → Prop := Trace (Yields step)

/-- The bytes that an event stores. -/
def Event.stored : Option Event → List Byte
  | some (.sent b) => [b]
  | _ => []

/-- The bytes that an event hands out. -/
def Event.handed : Option Event → List Byte
  | some (.read (some got)) => got
  | _ => []

omit [DecidableEq Tid] in
def sent (ls : List (Op Tid × Option Event)) : List Byte := ls.flatMap fun l => Event.stored l.2

omit [DecidableEq Tid] in
def delivered (ls : List (Op Tid × Option Event)) : List Byte := ls.flatMap fun l => Event.handed l.2

def Pc.holds : Pc → Bool
  | .writing .. | .reading _ | .copying .. => true
  | _ => false

/-- What a thread in `piperead` has got so far. -/
def Pc.got : Pc → List Byte
  | .copying _ got => got
  | _ => []

omit [DecidableEq Tid] in
/-- What is out of the pipe and not handed out yet. -/
def State.taken (s : State Tid) : List Byte := (s.owner.map fun t => (s.pc t).got).getD []

omit [DecidableEq Tid] in
/-- The bytes in the pipe, the oldest first. -/
def State.contents (s : State Tid) : List Byte :=
  (List.range (s.nwrite - s.nread).toNat).map fun i =>
    s.data.getD ((s.nread.toNat + i) % PIPESIZE) 0

@[simp] theorem holds_wakeReader (pc : Pc) : pc.wakeReader.holds = pc.holds := by cases pc <;> rfl
@[simp] theorem holds_wakeWriter (pc : Pc) : pc.wakeWriter.holds = pc.holds := by cases pc <;> rfl
@[simp] theorem got_wakeReader (pc : Pc) : pc.wakeReader.got = pc.got := by cases pc <;> rfl
@[simp] theorem got_wakeWriter (pc : Pc) : pc.wakeWriter.got = pc.got := by cases pc <;> rfl

section Counters

variable {r w : BitVec 32}

theorem full_iff : w = r + PIPESIZE ↔ (w - r).toNat = PIPESIZE := by
  have hcast : (PIPESIZE : BitVec 32) = 512#32 := rfl
  rw [hcast,PIPESIZE]
  bv_omega

theorem empty_iff : r = w ↔ (w - r).toNat = 0 := by bv_omega

theorem length_sent {k : ℕ} (h : (w - r).toNat = k) (hk : k < PIPESIZE) :
    (w + 1 - r).toNat = k + 1 := by
  simp only [PIPESIZE] at hk
  bv_omega

theorem length_taken {k : ℕ} (h : (w - r).toNat = k + 1) : (w - (r + 1)).toNat = k := by bv_omega

/-- The counters wrap around at a multiple of the size. -/
theorem slot_write : w.toNat % PIPESIZE = (r.toNat % PIPESIZE + (w - r).toNat) % PIPESIZE := by
  simp only [PIPESIZE,BitVec.toNat_sub]
  omega

theorem slot_next : (r + 1).toNat % PIPESIZE = (r.toNat % PIPESIZE + 1) % PIPESIZE := by
  have hone : (1 : BitVec 32).toNat = 1 := rfl
  simp only [PIPESIZE,BitVec.toNat_add,hone]
  omega

end Counters

/-- What was sent is what was handed out, what is about to be, and what is in the pipe. -/
structure Fifo (ins outs : List Byte) (s : State Tid) : Prop where
  owned : Threads.Owned Pc.holds s.owner s.pc
  size : s.data.length = PIPESIZE
  queue : ∃ q, Window s.data (s.nread.toNat % PIPESIZE) q ∧ (s.nwrite - s.nread).toNat = q.length ∧
    ins = outs ++ s.taken ++ q

namespace Fifo

variable {ins outs : List Byte} {s : State Tid} {t : Tid} {n : ℕ} {b : Byte} {rest got : List Byte}

omit [DecidableEq Tid] in
theorem taken_eq (h : Fifo ins outs s) (ht : (s.pc t).holds = true) : s.taken = (s.pc t).got := by
  rw [State.taken,(h.owned t).mpr ht]
  rfl

theorem writeStep (h : Fifo ins outs s) (ht : s.pc t = .writing n rest) :
    Post (writeStep t n rest) s
      (fun e s' => Fifo (ins ++ Event.stored e) (outs ++ Event.handed e) s') fun _ _ => True := by
  have hold : (s.pc t).holds = true := by rw [ht]; rfl
  have htaken : s.taken = [] := by rw [h.taken_eq hold,ht]; rfl
  obtain ⟨q,hw,hlen,hq⟩ := h.queue
  rw [htaken] at hq
  have hrelease : ∀ pc', pc'.holds = false → Fifo ins outs (s.release t pc') := fun pc' hpc =>
    ⟨h.owned.unlock hold hpc,h.size,q,hw,hlen,hq⟩
  have hwake : ∀ pc', pc'.holds = false → Fifo ins outs (s.wakeReaders.release t pc') := by
    intro pc' hpc
    have howned : Threads.Owned Pc.holds s.owner fun u => (s.pc u).wakeReader := fun u => by
      rw [holds_wakeReader]
      exact h.owned u
    exact ⟨howned.unlock (by rw [holds_wakeReader,hold]) hpc,h.size,q,hw,hlen,hq⟩
  cases rest with
  | nil => simpa [Pipe.writeStep,Event.stored,Event.handed] using hwake .user rfl
  | cons b rest =>
    simp only [Pipe.writeStep,post_bind,post_get]
    split
    · split
      · simpa [Event.stored,Event.handed] using hrelease .user rfl
      · simpa [Event.stored,Event.handed] using hwake (.write_asleep n (b::rest)) rfl
    · rename_i hfull
      have hlt : q.length < PIPESIZE := by
        have hne : q.length ≠ PIPESIZE := fun he =>
          hfull (beq_iff_eq.mpr (full_iff.mpr (hlen.trans he)))
        have := hw.length_le
        rw [h.size] at this
        omega
      have hpush := hw.push (by rwa [h.size]) b
      rw [h.size,← hlen,← slot_write] at hpush
      simp only [post_bind,post_set,post_pure,Event.stored,Event.handed,List.append_nil]
      refine ⟨h.owned.move (by rw [hold]; rfl),by rw [List.length_set,h.size],q ++ [b],hpush,?_,?_⟩
      · rw [List.length_append]
        exact length_sent hlen hlt
      · have htaken' : State.taken { s.goto t (.writing n rest) with
            data := s.data.set (s.nwrite.toNat % PIPESIZE) b, nwrite := s.nwrite + 1 } = [] := by
          simp [State.taken,State.goto,(h.owned t).mpr hold,Pc.got]
        rw [htaken',hq]
        simp

theorem readStep (h : Fifo ins outs s) (ht : s.pc t = .reading n) :
    Post (readStep t n) s
      (fun e s' => Fifo (ins ++ Event.stored e) (outs ++ Event.handed e) s') fun _ _ => True := by
  have hold : (s.pc t).holds = true := by rw [ht]; rfl
  have htaken : s.taken = [] := by rw [h.taken_eq hold,ht]; rfl
  obtain ⟨q,hw,hlen,hq⟩ := h.queue
  rw [htaken] at hq
  have hrelease : ∀ pc', pc'.holds = false → Fifo ins outs (s.release t pc') := fun pc' hpc =>
    ⟨h.owned.unlock hold hpc,h.size,q,hw,hlen,hq⟩
  simp only [Pipe.readStep,post_bind,post_get]
  split
  · split
    · simpa [Event.stored,Event.handed] using hrelease .user rfl
    · simpa [Event.stored,Event.handed] using hrelease (.read_asleep n) rfl
  · simp only [post_bind,post_set,post_pure,Event.stored,Event.handed,List.append_nil]
    refine ⟨h.owned.move (by rw [hold]; rfl),h.size,q,hw,hlen,?_⟩
    have htaken' : (s.goto t (.copying n [])).taken = [] := by
      simp [State.taken,State.goto,(h.owned t).mpr hold,Pc.got]
    rw [htaken',hq]

theorem copyStep (h : Fifo ins outs s) (ht : s.pc t = .copying n got) :
    Post (copyStep t n got) s
      (fun e s' => Fifo (ins ++ Event.stored e) (outs ++ Event.handed e) s') fun _ _ => True := by
  have hold : (s.pc t).holds = true := by rw [ht]; rfl
  have htaken : s.taken = got := by rw [h.taken_eq hold,ht]; rfl
  obtain ⟨q,hw,hlen,hq⟩ := h.queue
  rw [htaken] at hq
  simp only [Pipe.copyStep,post_bind,post_get]
  split
  · rename_i hcond
    cases q with
    | nil => exact absurd (beq_iff_eq.mpr (empty_iff.mpr hlen)) hcond.2
    | cons b q =>
      have hpop := hw.pop
      rw [h.size,← slot_next] at hpop
      have hb : s.data.getD (s.nread.toNat % PIPESIZE) 0 = b := by
        rw [List.getD_eq_getElem?_getD,hw.head_eq]
        rfl
      simp only [post_bind,post_set,post_pure,Event.stored,Event.handed,List.append_nil]
      refine ⟨h.owned.move (by rw [hold]; rfl),h.size,q,hpop,length_taken hlen,?_⟩
      have htaken' : State.taken { s.goto t (.copying n (got ++ [s.data.getD (s.nread.toNat % PIPESIZE) 0]))
          with nread := s.nread + 1 } = got ++ [b] := by
        simp only [State.taken,State.goto,(h.owned t).mpr hold,Option.map_some,Option.getD_some,
          Function.update_self,Pc.got,hb]
      rw [htaken',hq]
      simp
  · simp only [post_bind,post_set,post_pure,Event.stored,Event.handed,List.append_nil]
    have howned : Threads.Owned Pc.holds s.owner fun u => (s.pc u).wakeWriter := fun u => by
      rw [holds_wakeWriter]
      exact h.owned u
    exact ⟨howned.unlock (by rw [holds_wakeWriter,hold]) rfl,h.size,q,hw,hlen,
      by simpa [State.taken,State.release] using hq⟩

omit [DecidableEq Tid] in
/-- A step that leaves the bytes where they are and nobody's hold on them. -/
theorem congr (h : Fifo ins outs s) {s' : State Tid} (howned : Threads.Owned Pc.holds s'.owner s'.pc)
    (hdata : s'.data = s.data) (hr : s'.nread = s.nread) (hw : s'.nwrite = s.nwrite)
    (htaken : s'.taken = s.taken) : Fifo ins outs s' := by
  refine ⟨howned,by rw [hdata,h.size],?_⟩
  rw [hdata,hr,hw,htaken]
  exact h.queue

theorem acquire (h : Fifo ins outs s) :
    Post (acquire t) s
      (fun e s' => Fifo (ins ++ Event.stored e) (outs ++ Event.handed e) s') fun _ _ => True := by
  simp only [Pipe.acquire,post_bind,post_get]
  split
  · rename_i hfree
    have howned : Threads.Owned Pc.holds none s.pc := hfree ▸ h.owned
    have htaken : s.taken = [] := by rw [State.taken,hfree]; rfl
    have hlock : ∀ pc', pc'.holds = true → pc'.got = [] →
        Fifo ins outs { s.goto t pc' with owner := some t } := fun pc' hpc hgot =>
      h.congr (howned.lock hpc) rfl rfl rfl (by rw [htaken]; simp [State.taken,State.goto,hgot])
    split
    · rename_i n rest _
      simpa [Event.stored,Event.handed] using hlock (.writing n rest) rfl rfl
    · rename_i n _
      simpa [Event.stored,Event.handed] using hlock (.reading n) rfl rfl
    · trivial
  · trivial

theorem call (h : Fifo ins outs s) {pc : Pc} (hpc : pc.holds = false) :
    Post (call t pc) s
      (fun e s' => Fifo (ins ++ Event.stored e) (outs ++ Event.handed e) s') fun _ _ => True := by
  simp only [Pipe.call,post_bind,post_get]
  split
  · rename_i ht
    simp only [post_bind,post_set,post_pure,Event.stored,Event.handed,List.append_nil]
    refine h.congr (h.owned.move (by rw [hpc,ht]; rfl)) rfl rfl rfl ?_
    cases ho : s.owner with
    | none => simp [State.taken,State.goto,ho]
    | some u =>
      have hu : u ≠ t := by
        rintro rfl
        have := (h.owned u).mp ho
        rw [ht] at this
        cases this
      simp [State.taken,State.goto,ho,Function.update_of_ne hu]
  · trivial

theorem kill (h : Fifo ins outs s) :
    Post (kill t) s
      (fun e s' => Fifo (ins ++ Event.stored e) (outs ++ Event.handed e) s') fun _ _ => True := by
  simp only [Pipe.kill,post_bind,post_modify,post_pure,Event.stored,Event.handed,List.append_nil]
  refine h.congr (h.owned.move (by simp)) rfl rfl rfl ?_
  cases ho : s.owner with
  | none => simp [State.taken,State.goto,ho]
  | some u =>
    by_cases hu : u = t
    · subst hu
      simp [State.taken,State.goto,ho]
    · simp [State.taken,State.goto,ho,Function.update_of_ne hu]

omit [DecidableEq Tid] in
theorem pipeclose (h : Fifo ins outs s) (writable : Bool) :
    Post (pipeclose writable) s
      (fun e s' => Fifo (ins ++ Event.stored e) (outs ++ Event.handed e) s') fun _ _ => True := by
  simp only [Pipe.pipeclose,post_bind,post_get]
  split
  · split
    · simp only [post_bind,post_set,post_pure,Event.stored,Event.handed,List.append_nil]
      refine h.congr (fun u => ?_) rfl rfl rfl (by simp [State.taken,State.wakeReaders])
      exact (h.owned u).trans (by simp [State.wakeReaders])
    · simp only [post_bind,post_set,post_pure,Event.stored,Event.handed,List.append_nil]
      refine h.congr (fun u => ?_) rfl rfl rfl (by simp [State.taken,State.wakeWriters])
      exact (h.owned u).trans (by simp [State.wakeWriters])
  · trivial

theorem step (h : Fifo ins outs s) (op : Op Tid) :
    Post (step op) s
      (fun e s' => Fifo (ins ++ Event.stored e) (outs ++ Event.handed e) s') fun _ _ => True := by
  cases op with
  | pipewrite t addr => exact h.call rfl
  | piperead t n => exact h.call rfl
  | acquire t => exact h.acquire
  | kill t => exact h.kill
  | pipeclose writable => exact h.pipeclose writable
  | run t =>
    simp only [Pipe.step,Pipe.run,post_bind,post_get]
    split
    · exact h.writeStep ‹_›
    · exact h.readStep ‹_›
    · exact h.copyStep ‹_›
    · trivial

end Fifo

omit [DecidableEq Tid] in
theorem Fresh.fifo {s : State Tid} (h : Fresh s) : Fifo [] [] s where
  owned t := by simp [h.owner,h.pc t,Pc.holds]
  size := h.data
  queue := ⟨[],.nil (by rw [h.data]; exact Nat.mod_lt _ (by decide)),by simp [h.nread,h.nwrite],
    by simp [State.taken,h.owner]⟩

theorem Runs.fifo {s₀ s : State Tid} {ls : List (Op Tid × Option Event)} (h : Fresh s₀)
    (hr : Runs s₀ ls s) : Fifo (sent ls) (delivered ls) s := by
  induction hr with
  | nil => exact h.fifo
  | snoc _ hl ih => simpa [sent,delivered] using hl.of_post (ih.step _)

omit [DecidableEq Tid] in
theorem Fifo.contents {ins outs : List Byte} {s : State Tid} (h : Fifo ins outs s) :
    ins = outs ++ s.taken ++ s.contents ∧ s.contents.length ≤ PIPESIZE := by
  obtain ⟨q,hw,hlen,hq⟩ := h.queue
  have heq : s.contents = q := by
    have hmap := hw.map_range 0
    simp only [h.size,Nat.mod_add_mod] at hmap
    rwa [State.contents,hlen]
  rw [heq]
  exact ⟨hq,h.size ▸ hw.length_le⟩

/-- A pipe is first in, first out, in every interleaving of readers and writers and however often the
counters wrap around: while nobody holds the lock, the bytes stored by all writers in their order are
the bytes that the completed reads have returned, one read after the other, and the at most
`PIPESIZE` bytes in the pipe. -/
theorem pipe_fifo {s₀ s : State Tid} {ls : List (Op Tid × Option Event)} (h : Fresh s₀)
    (hr : Runs s₀ ls s) (hfree : s.owner = none) :
    sent ls = delivered ls ++ s.contents ∧ s.contents.length ≤ PIPESIZE := by
  have hc := (hr.fifo h).contents
  have htaken : s.taken = [] := by rw [State.taken,hfree]; rfl
  rwa [htaken,List.append_nil] at hc

/-- A pipe of zeros. -/
def new (Tid : Type) : State Tid :=
  ⟨List.replicate PIPESIZE 0,0,0,true,true,none,fun _ => false,fun _ => .user⟩

omit [DecidableEq Tid] in
theorem fresh_new : Fresh (new Tid) := ⟨List.length_replicate,rfl,rfl,rfl,rfl,rfl,fun _ => rfl⟩

theorem pipe_fifo_one : ∃ (s : State Bool) (ls : List (Op Bool × Option Event)),
    s.owner = none ∧ sent ls = [7] ∧
    sent ls = delivered ls ++ s.contents ∧ s.contents.length ≤ PIPESIZE := by
  have h₁ : Runs (new Bool) [(.pipewrite true [7],none)] _ := .single rfl
  have h₂ : Runs (new Bool) [(.pipewrite true [7],none),(.acquire true,none)] _ :=
    h₁.snoc (l := (Op.acquire true,none)) rfl
  have h₃ : Runs (new Bool) [(.pipewrite true [7],none),(.acquire true,none),
      (.run true,some (.sent 7))] _ := h₂.snoc (l := (Op.run true,some (Event.sent 7))) rfl
  have h₄ : Runs (new Bool) [(.pipewrite true [7],none),(.acquire true,none),
      (.run true,some (.sent 7)),(.run true,some (.wrote (some 1)))] _ :=
    h₃.snoc (l := (Op.run true,some (Event.wrote (some 1)))) rfl
  exact ⟨_,_,rfl,rfl,pipe_fifo fresh_new h₄ rfl⟩

/-! Sleepers on a pipe are woken, but for the readers that a killed writer leaves behind. -/

variable {s s' : State Tid} {t u : Tid} {failed : Prop}

omit [DecidableEq Tid] in
/-- A call of `pipewrite` has returned -1. -/
def GaveUp (ls : List (Op Tid × Option Event)) : Prop := ∃ l ∈ ls, l.2 = some (.wrote none)

/-- A thread that has the lock and stores bytes. -/
def Pc.stores : Pc → Bool
  | .writing .. => true
  | _ => false

/-- A thread that has the lock and takes bytes. -/
def Pc.takes : Pc → Bool
  | .copying .. => true
  | _ => false

/-- Who sleeps has nothing to do, or is about to be woken by the thread that has the lock. -/
structure Awake (failed : Prop) (s : State Tid) : Prop where
  owned : Threads.Owned Pc.holds s.owner s.pc
  readers : ∀ u n, s.pc u = .read_asleep n → s.writeopen = true ∧
    (s.empty = true ∨ (∃ t, (s.pc t).stores = true) ∨ failed)
  writers : ∀ u n rest, s.pc u = .write_asleep n rest → s.readopen = true ∧
    (s.full = true ∨ ∃ t, (s.pc t).takes = true)

theorem Pc.holds_of_stores {pc : Pc} (h : pc.stores = true) : pc.holds = true := by
  cases pc <;> first | rfl | cases h

theorem Pc.holds_of_takes {pc : Pc} (h : pc.takes = true) : pc.holds = true := by
  cases pc <;> first | rfl | cases h

@[simp] theorem wakeReader_ne_asleep (pc : Pc) (n : ℕ) : pc.wakeReader ≠ .read_asleep n := by
  cases pc <;> simp [Pc.wakeReader]

@[simp] theorem wakeWriter_ne_asleep (pc : Pc) (n : ℕ) (rest : List Byte) :
    pc.wakeWriter ≠ .write_asleep n rest := by
  cases pc <;> simp [Pc.wakeWriter]

@[simp] theorem wakeReader_eq_write_asleep {pc : Pc} {n : ℕ} {rest : List Byte} :
    pc.wakeReader = .write_asleep n rest ↔ pc = .write_asleep n rest := by
  cases pc <;> simp [Pc.wakeReader]

@[simp] theorem wakeWriter_eq_read_asleep {pc : Pc} {n : ℕ} :
    pc.wakeWriter = .read_asleep n ↔ pc = .read_asleep n := by
  cases pc <;> simp [Pc.wakeWriter]

@[simp] theorem stores_wakeReader (pc : Pc) : pc.wakeReader.stores = pc.stores := by cases pc <;> rfl
@[simp] theorem stores_wakeWriter (pc : Pc) : pc.wakeWriter.stores = pc.stores := by cases pc <;> rfl
@[simp] theorem takes_wakeReader (pc : Pc) : pc.wakeReader.takes = pc.takes := by cases pc <;> rfl
@[simp] theorem takes_wakeWriter (pc : Pc) : pc.wakeWriter.takes = pc.takes := by cases pc <;> rfl

namespace Awake

omit [DecidableEq Tid] in
/-- While the thread with the lock stores no bytes, a sleeping reader has nothing to read. -/
theorem nothing (h : Awake failed s) (ht : (s.pc t).holds = true) (hs : (s.pc t).stores = false)
    {n : ℕ} (hu : s.pc u = .read_asleep n) : s.writeopen = true ∧ (s.empty = true ∨ failed) := by
  obtain ⟨hw,he | ⟨v,hv⟩ | hf⟩ := h.readers u n hu
  · exact ⟨hw,.inl he⟩
  · rw [h.owned.eq ht (Pc.holds_of_stores hv),hv] at hs
    cases hs
  · exact ⟨hw,.inr hf⟩

omit [DecidableEq Tid] in
/-- While the thread with the lock takes no bytes, a sleeping writer has no room. -/
theorem no_room (h : Awake failed s) (ht : (s.pc t).holds = true) (hs : (s.pc t).takes = false)
    {n : ℕ} {rest : List Byte} (hu : s.pc u = .write_asleep n rest) :
    s.readopen = true ∧ s.full = true := by
  obtain ⟨hr,hf | ⟨v,hv⟩⟩ := h.writers u n rest hu
  · exact ⟨hr,hf⟩
  · rw [h.owned.eq ht (Pc.holds_of_takes hv),hv] at hs
    cases hs

/-- Sleepers in a state with another program counter for `t` slept before, unless they are `t`. -/
theorem asleep_of_update {pc : Tid → Pc} {p q : Pc} (h : Function.update pc t p u = q) (hne : p ≠ q) :
    u ≠ t ∧ pc u = q := by
  rw [Function.update_apply] at h
  split at h
  · exact (hne h).elim
  · exact ⟨‹_›,h⟩

theorem writeStep (h : Awake failed s) {n : ℕ} {rest : List Byte} (ht : s.pc t = .writing n rest) :
    Post (writeStep t n rest) s
      (fun e s' => Awake (failed ∨ e = some (.wrote none)) s') fun _ _ => True := by
  have hold : (s.pc t).holds = true := by rw [ht]; rfl
  have hno := fun u n rest (hu : s.pc u = .write_asleep n rest) => h.no_room hold (by rw [ht]; rfl) hu
  have hwoken : Threads.Owned Pc.holds s.owner fun u => (s.pc u).wakeReader := fun u => by
    rw [holds_wakeReader]
    exact h.owned u
  have hwake : ∀ (pc' : Pc) (P : Prop), pc'.holds = false → (∀ n, pc' ≠ .read_asleep n) →
      (∀ n rest, pc' = .write_asleep n rest → s.readopen = true ∧ s.full = true) →
      Awake P (s.wakeReaders.release t pc') := by
    intro pc' P hpc hr hw
    refine ⟨hwoken.unlock (by rwa [holds_wakeReader]) hpc,fun u m hu => ?_,fun u m rest' hu => ?_⟩
    · obtain ⟨-,hu⟩ := asleep_of_update hu (hr m)
      exact (wakeReader_ne_asleep _ _ hu).elim
    · by_cases hq : pc' = .write_asleep m rest'
      · exact (hw m rest' hq).imp id .inl
      · obtain ⟨-,hu⟩ := asleep_of_update hu hq
        exact (hno u m rest' (wakeReader_eq_write_asleep.mp hu)).imp id .inl
  cases rest with
  | nil => exact hwake .user _ rfl nofun nofun
  | cons b rest =>
    simp only [Pipe.writeStep,post_bind,post_get]
    split
    · rename_i hfull
      split
      · refine ⟨h.owned.unlock hold rfl,fun u m hu => ?_,fun u m rest' hu => ?_⟩
        · obtain ⟨-,hu⟩ := asleep_of_update hu nofun
          exact ⟨(h.readers u m hu).1,.inr (.inr (.inr rfl))⟩
        · obtain ⟨-,hu⟩ := asleep_of_update hu nofun
          exact (hno u m rest' hu).imp id .inl
      · rename_i hgo
        push Not at hgo
        exact hwake _ _ rfl nofun fun _ _ _ => ⟨by simpa using hgo.1,hfull⟩
    · rename_i hfull
      refine ⟨h.owned.move (by rw [hold]; rfl),fun u m hu => ?_,fun u m rest' hu => ?_⟩
      · obtain ⟨-,hu⟩ := asleep_of_update hu nofun
        refine ⟨(h.readers u m hu).1,.inr (.inl ⟨t,?_⟩)⟩
        simp [State.goto,Pc.stores]
      · obtain ⟨-,hu⟩ := asleep_of_update hu nofun
        exact (hfull (hno u m rest' hu).2).elim

theorem readStep (h : Awake failed s) {n : ℕ} (ht : s.pc t = .reading n) :
    Post (readStep t n) s (fun _ s' => Awake failed s') fun _ _ => True := by
  have hold : (s.pc t).holds = true := by rw [ht]; rfl
  have hnone := fun u n hu => h.nothing (u := u) (n := n) hold (by rw [ht]; rfl) hu
  have hno := fun u n rest (hu : s.pc u = .write_asleep n rest) => h.no_room hold (by rw [ht]; rfl) hu
  have hrelease : ∀ (pc' : Pc), pc'.holds = false → (∀ n rest, pc' ≠ .write_asleep n rest) →
      (∀ n, pc' = .read_asleep n → s.writeopen = true ∧ s.empty = true) →
      Awake failed (s.release t pc') := by
    intro pc' hpc hw hr
    refine ⟨h.owned.unlock hold hpc,fun u m hu => ?_,fun u m rest' hu => ?_⟩
    · by_cases hq : pc' = .read_asleep m
      · exact (hr m hq).imp id .inl
      · obtain ⟨-,hu⟩ := asleep_of_update hu hq
        exact (hnone u m hu).imp id fun ho => ho.imp id .inr
    · obtain ⟨-,hu⟩ := asleep_of_update hu (hw m rest')
      exact (hno u m rest' hu).imp id .inl
  simp only [Pipe.readStep,post_bind,post_get]
  split
  · rename_i hempty
    split
    · exact hrelease .user rfl nofun nofun
    · exact hrelease _ rfl nofun fun _ _ => ⟨hempty.2,hempty.1⟩
  · refine ⟨h.owned.move (by rw [hold]; rfl),fun u m hu => ?_,fun u m rest' hu => ?_⟩
    · obtain ⟨-,hu⟩ := asleep_of_update hu nofun
      exact (hnone u m hu).imp id fun ho => ho.imp id .inr
    · obtain ⟨-,hu⟩ := asleep_of_update hu nofun
      exact (hno u m rest' hu).imp id .inl

theorem copyStep (h : Awake failed s) {n : ℕ} {got : List Byte} (ht : s.pc t = .copying n got) :
    Post (copyStep t n got) s (fun _ s' => Awake failed s') fun _ _ => True := by
  have hold : (s.pc t).holds = true := by rw [ht]; rfl
  have hnone := fun u n hu => h.nothing (u := u) (n := n) hold (by rw [ht]; rfl) hu
  simp only [Pipe.copyStep,post_bind,post_get]
  split
  · rename_i hcond
    refine ⟨h.owned.move (by rw [hold]; rfl),fun u m hu => ?_,fun u m rest' hu => ?_⟩
    · obtain ⟨-,hu⟩ := asleep_of_update hu nofun
      exact (hnone u m hu).imp id fun ho =>
        ho.elim (fun he => (hcond.2 he).elim) fun hf => .inr (.inr hf)
    · obtain ⟨-,hu⟩ := asleep_of_update hu nofun
      refine ⟨(h.writers u m rest' hu).1,.inr ⟨t,?_⟩⟩
      simp [State.goto,Pc.takes]
  · have hwoken : Threads.Owned Pc.holds s.owner fun u => (s.pc u).wakeWriter := fun u => by
      rw [holds_wakeWriter]
      exact h.owned u
    refine ⟨hwoken.unlock (by rw [holds_wakeWriter,hold]) rfl,fun u m hu => ?_,fun u m rest' hu => ?_⟩
    · obtain ⟨-,hu⟩ := asleep_of_update hu nofun
      exact (hnone u m (wakeWriter_eq_read_asleep.mp hu)).imp id fun ho => ho.imp id .inr
    · obtain ⟨-,hu⟩ := asleep_of_update hu nofun
      exact (wakeWriter_ne_asleep _ _ _ hu).elim

/-- A thread that does not have the lock goes on, and does not fall asleep. -/
theorem goto (h : Awake failed s) {p : Pc} {owner : Option Tid}
    (howned : Threads.Owned Pc.holds owner (Function.update s.pc t p))
    (ht : (s.pc t).holds = false) (hr : ∀ n, p ≠ .read_asleep n)
    (hw : ∀ n rest, p ≠ .write_asleep n rest) : Awake failed { s.goto t p with owner := owner } := by
  refine ⟨howned,fun u m hu => ?_,fun u m rest' hu => ?_⟩
  · obtain ⟨-,hu⟩ := asleep_of_update hu (hr m)
    refine (h.readers u m hu).imp id (Or.imp id (Or.imp ?_ id))
    rintro ⟨v,hv⟩
    have hne : v ≠ t := fun he => by simp [he ▸ Pc.holds_of_stores hv] at ht
    exact ⟨v,by simpa [State.goto,Function.update_of_ne hne] using hv⟩
  · obtain ⟨-,hu⟩ := asleep_of_update hu (hw m rest')
    refine (h.writers u m rest' hu).imp id (Or.imp id ?_)
    rintro ⟨v,hv⟩
    have hne : v ≠ t := fun he => by simp [he ▸ Pc.holds_of_takes hv] at ht
    exact ⟨v,by simpa [State.goto,Function.update_of_ne hne] using hv⟩

theorem acquire (h : Awake failed s) :
    Post (acquire t) s (fun _ s' => Awake failed s') fun _ _ => True := by
  simp only [Pipe.acquire,post_bind,post_get]
  split
  · rename_i hfree
    have howned : Threads.Owned Pc.holds none s.pc := hfree ▸ h.owned
    split
    · exact h.goto (howned.lock rfl) (by simp [*,Pc.holds]) nofun nofun
    · exact h.goto (howned.lock rfl) (by simp [*,Pc.holds]) nofun nofun
    · trivial
  · trivial

theorem call (h : Awake failed s) {p : Pc} (hp : p.holds = false) (hr : ∀ n, p ≠ .read_asleep n)
    (hw : ∀ n rest, p ≠ .write_asleep n rest) :
    Post (call t p) s (fun _ s' => Awake failed s') fun _ _ => True := by
  simp only [Pipe.call,post_bind,post_get]
  split
  · rename_i ht
    exact h.goto (h.owned.move (by rw [hp,ht]; rfl)) (by rw [ht]; rfl) hr hw
  · trivial

theorem kill (h : Awake failed s) : Post (kill t) s (fun _ s' => Awake failed s') fun _ _ => True := by
  have hread : ∀ n, (s.pc t).wakeReader.wakeWriter ≠ .read_asleep n := by simp
  have hkeep : ∀ (P : Pc → Bool), (∀ pc : Pc, P pc.wakeReader.wakeWriter = P pc) →
      (∃ v, P (s.pc v) = true) →
      ∃ v, P (Function.update s.pc t (s.pc t).wakeReader.wakeWriter v) = true := by
    rintro P hP ⟨v,hv⟩
    refine ⟨v,?_⟩
    rw [Function.update_apply]
    split
    · rename_i he
      rw [hP,← he,hv]
    · exact hv
  refine ⟨h.owned.move (by simp),fun u m hu => ?_,fun u m rest' hu => ?_⟩
  · obtain ⟨-,hu⟩ := asleep_of_update hu (hread m)
    exact (h.readers u m hu).imp id (Or.imp id (Or.imp (hkeep Pc.stores fun pc => by simp) id))
  · obtain ⟨-,hu⟩ := asleep_of_update hu (wakeWriter_ne_asleep _ _ _)
    exact (h.writers u m rest' hu).imp id (Or.imp id (hkeep Pc.takes fun pc => by simp))

omit [DecidableEq Tid] in
theorem pipeclose (h : Awake failed s) (writable : Bool) :
    Post (pipeclose writable) s (fun _ s' => Awake failed s') fun _ _ => True := by
  simp only [Pipe.pipeclose,post_bind,post_get]
  split
  · split
    · refine ⟨fun u => ?_,fun u m hu => (wakeReader_ne_asleep _ _ hu).elim,fun u m rest' hu => ?_⟩
      · exact (h.owned u).trans (by simp [State.wakeReaders])
      · exact (h.writers u m rest' (wakeReader_eq_write_asleep.mp hu)).imp id
          (Or.imp id fun ⟨v,hv⟩ => ⟨v,by simpa [State.wakeReaders] using hv⟩)
    · refine ⟨fun u => ?_,fun u m hu => ?_,fun u m rest' hu => (wakeWriter_ne_asleep _ _ _ hu).elim⟩
      · exact (h.owned u).trans (by simp [State.wakeWriters])
      · exact (h.readers u m (wakeWriter_eq_read_asleep.mp hu)).imp id
          (Or.imp id (Or.imp (fun ⟨v,hv⟩ => ⟨v,by simpa [State.wakeWriters] using hv⟩) id))
  · trivial

omit [DecidableEq Tid] in
theorem mono (h : Awake failed s) {failed' : Prop} (hf : failed → failed') : Awake failed' s :=
  ⟨h.owned,fun u n hu => (h.readers u n hu).imp id (Or.imp id (Or.imp id hf)),h.writers⟩

theorem step (h : Awake failed s) (op : Op Tid) : Post (step op) s
    (fun e s' => Awake (failed ∨ e = some (.wrote none)) s') fun _ _ => True := by
  have hmono : ∀ (e : Option Event) (s' : State Tid), Awake failed s' →
      Awake (failed ∨ e = some (.wrote none)) s' :=
    fun e s' h' => h'.mono .inl
  cases op with
  | pipewrite t addr =>
    exact (h.call (p := .write_acquire addr.length addr) rfl nofun nofun).imp hmono
  | piperead t n => exact (h.call (p := .read_acquire n) rfl nofun nofun).imp hmono
  | acquire t => exact h.acquire.imp hmono
  | kill t => exact h.kill.imp hmono
  | pipeclose writable => exact (h.pipeclose writable).imp hmono
  | run t =>
    simp only [Pipe.step,Pipe.run,post_bind,post_get]
    split
    · exact h.writeStep ‹_›
    · exact (h.readStep ‹_›).imp hmono
    · exact (h.copyStep ‹_›).imp hmono
    · trivial

end Awake

omit [DecidableEq Tid] in
theorem Fresh.awake (h : Fresh s) : Awake False s where
  owned := h.fifo.owned
  readers u n hu := by simp [h.pc] at hu
  writers u n rest hu := by simp [h.pc] at hu

theorem Runs.awake {ls : List (Op Tid × Option Event)} (h : Fresh s) (hr : Runs s ls s') :
    Awake (GaveUp ls) s' := by
  induction hr with
  | nil => exact h.awake.mono False.elim
  | @snoc ls l _ _ _ hl ih =>
    refine (hl.of_post (ih.step l.1)).mono ?_
    rintro (⟨l',hl',he⟩ | he)
    · exact ⟨l',List.mem_append_left _ hl',he⟩
    · exact ⟨l,List.mem_append_right _ (List.mem_singleton_self l),he⟩

/-- While nobody holds the lock, a reader sleeps only on an empty pipe that is open for writing, unless
a writer has given up, and a writer sleeps only on a full pipe that is open for reading. -/
theorem no_lost_wakeup {s₀ : State Tid} {ls : List (Op Tid × Option Event)} (h : Fresh s₀)
    (hr : Runs s₀ ls s) (hfree : s.owner = none) :
    (∀ u n, s.pc u = .read_asleep n → s.writeopen = true ∧ (s.contents = [] ∨ GaveUp ls)) ∧
      ∀ u n rest, s.pc u = .write_asleep n rest →
        s.readopen = true ∧ s.contents.length = PIPESIZE := by
  have ha := hr.awake h
  have hout : ∀ t, (s.pc t).holds = false := fun t => by
    have := ha.owned t
    rw [hfree] at this
    simpa using this
  refine ⟨fun u n hu => ?_,fun u n rest hu => ?_⟩
  · refine (ha.readers u n hu).imp id ?_
    rintro (he | ⟨t,ht⟩ | hf)
    · left
      have hlen := empty_iff.mp (beq_iff_eq.mp he)
      rw [State.contents,hlen]
      rfl
    · cases (hout t).symm.trans (Pc.holds_of_stores ht)
    · exact .inr hf
  · refine (ha.writers u n rest hu).imp id ?_
    rintro (hf | ⟨t,ht⟩)
    · rw [State.contents,List.length_map,List.length_range]
      exact full_iff.mp (beq_iff_eq.mp hf)
    · cases (hout t).symm.trans (Pc.holds_of_takes ht)

/-- `t` has the lock and has stored `k` bytes of a buffer that is one too long, while `u` sleeps. -/
structure Filling (t u : Tid) (k : ℕ) (s : State Tid) : Prop where
  owner : s.owner = some t
  writing : s.pc t = .writing (PIPESIZE + 1) (.replicate (PIPESIZE + 1 - k) 7)
  asleep : s.pc u = .read_asleep 1
  others : ∀ v, v ≠ t → v ≠ u → s.pc v = .user
  killed : s.killed t = true
  length : (s.nwrite - s.nread).toNat = k

theorem run_writing {n : ℕ} {rest : List Byte} (ht : s.pc t = .writing n rest) :
    Pipe.step (.run t) s = Pipe.writeStep t n rest s := by
  simp only [Pipe.step,Pipe.run,get_bind_run,ht]

theorem Filling.succ {k : ℕ} (h : Filling t u k s) (hne : u ≠ t) (hk : k < PIPESIZE) :
    ∃ e s', Yields Pipe.step (.run t,e) s s' ∧ Filling t u (k + 1) s' := by
  have hfull : s.full = false := by
    rw [Bool.eq_false_iff]
    intro hf
    have := full_iff.mp (beq_iff_eq.mp hf)
    rw [h.length] at this
    omega
  have hrep : List.replicate (PIPESIZE + 1 - k) (7 : Byte) =
      7::.replicate (PIPESIZE + 1 - (k + 1)) 7 := by
    rw [show PIPESIZE + 1 - k = PIPESIZE + 1 - (k + 1) + 1 by omega,List.replicate_succ]
  have hw := h.writing
  rw [hrep] at hw
  have hstep : Pipe.writeStep t (PIPESIZE + 1) (7::.replicate (PIPESIZE + 1 - (k + 1)) 7) s =
      .ok (some (.sent 7)) { s.goto t (.writing (PIPESIZE + 1) (.replicate (PIPESIZE + 1 - (k + 1)) 7))
        with data := s.data.set (s.nwrite.toNat % PIPESIZE) 7, nwrite := s.nwrite + 1 } := by
    rw [Pipe.writeStep,get_bind_run,hfull]
    rfl
  refine ⟨_,_,(run_writing hw).trans hstep,{
    owner := h.owner
    writing := by simp [State.goto]
    asleep := by simp [State.goto,Function.update_of_ne hne,h.asleep]
    others := fun v hv hv' => by simp [State.goto,Function.update_of_ne hv,h.others v hv hv']
    killed := h.killed
    length := length_sent h.length hk }⟩

theorem Filling.run {k m : ℕ} {s₀ : State Tid} {ls : List (Op Tid × Option Event)}
    (h : Filling t u k s) (hr : Runs s₀ ls s) (hne : u ≠ t) (hk : k + m = PIPESIZE) :
    ∃ ls' s', Runs s₀ ls' s' ∧ Filling t u PIPESIZE s' := by
  induction m generalizing k s ls with
  | zero => exact ⟨ls,s,hr,by rwa [← hk]⟩
  | succ m ih =>
    obtain ⟨e,s',hs,h'⟩ := h.succ hne (by omega)
    exact ih h' (hr.snoc hs) (by omega)

/-- A reader sleeps, and a writer with a buffer that is one too long is killed and has the lock. -/
theorem exists_filling : ∃ ls s, Runs (new Bool) ls s ∧ Filling true false 0 s := by
  let addr : List Byte := .replicate (PIPESIZE + 1) 7
  have h₁ : Runs (new Bool) [(.piperead false 1,none)] _ := .single rfl
  have h₂ := h₁.snoc (l := (Op.acquire false,none)) rfl
  have h₃ := h₂.snoc (l := (Op.run false,none)) rfl
  have h₄ := h₃.snoc (l := (Op.pipewrite true addr,none)) rfl
  have h₅ := h₄.snoc (l := (Op.kill true,none)) rfl
  have h₆ := h₅.snoc (l := (Op.acquire true,none)) rfl
  refine ⟨_,_,h₆,{
    owner := rfl
    writing := ?_
    asleep := rfl
    others := fun v hv hv' => by cases v <;> simp at hv hv'
    killed := rfl
    length := ?_ }⟩
  rotate_left
  · show ((0 : BitVec 32) - 0).toNat = 0
    decide
  show Pc.writing addr.length addr = _
  rw [List.length_replicate]
  rfl

/-- A writer that is killed while it stores the bytes that a reader waits for leaves the reader asleep on
a full pipe, and nobody is left to wake it. -/
theorem exists_left_asleep : ∃ ls s, Runs (new Bool) ls s ∧ s.owner = none ∧
    s.pc false = .read_asleep 1 ∧ s.pc true = .user ∧ s.contents.length = PIPESIZE := by
  obtain ⟨ls₀,s₀,hr₀,h₀⟩ := exists_filling
  obtain ⟨ls,s,hr,h⟩ := h₀.run hr₀ (by decide) (Nat.zero_add PIPESIZE)
  have hfull : s.full = true := beq_iff_eq.mpr (full_iff.mpr h.length)
  have hw := h.writing
  rw [Nat.add_sub_cancel_left,List.replicate_one] at hw
  have hstep : Pipe.writeStep true (PIPESIZE + 1) [7] s =
      .ok (some (.wrote none)) (s.release true .user) := by
    rw [Pipe.writeStep,get_bind_run,hfull,if_pos rfl,h.killed,if_pos (.inr rfl)]
    rfl
  refine ⟨_,_,hr.snoc (l := (Op.run true,_)) ((run_writing hw).trans hstep),rfl,?_,?_,?_⟩
  · simp [State.release,State.goto,h.asleep]
  · simp [State.release,State.goto]
  · rw [State.contents,List.length_map,List.length_range]
    exact h.length

theorem no_lost_wakeup_left_asleep : ∃ (ls : List (Op Bool × Option Event)) (s : State Bool),
    s.pc false = .read_asleep 1 ∧ s.contents.length = PIPESIZE ∧
    (∀ u n, s.pc u = .read_asleep n → s.writeopen = true ∧ (s.contents = [] ∨ GaveUp ls)) ∧
      ∀ u n rest, s.pc u = .write_asleep n rest →
        s.readopen = true ∧ s.contents.length = PIPESIZE := by
  obtain ⟨ls,s,hr,ho,hu,-,hc⟩ := exists_left_asleep
  exact ⟨ls,s,hu,hc,no_lost_wakeup fresh_new hr ho⟩

end ResumePointers.Fs.Pipe

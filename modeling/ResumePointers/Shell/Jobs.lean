import ResumePointers.Lib.Runs
import ResumePointers.Shell.Commands
import Mathlib.Data.Finset.Insert
import Mathlib.Data.Fintype.Fin

/-! The background jobs of the shell (`os/my_shell.c`): the table `waitKiskeLiyeKarRhe`, with the
children it is for. Children finish at any time, and every `fork`, `waitpid` and `kill` of the
shell is a step of its own. -/
namespace ResumePointers.Shell

/-- What a line does to the background jobs. -/
inductive Action
  | nothing
  | parallel
  | start (n : ℕ)
  | quit
deriving DecidableEq

/-- The branches of `main`; `none` is a store outside of the buffers. -/
def action (line : List Char) : Option Action :=
  if line.length + 2 ≤ MAX_INPUT_SIZE then do
    let tokens ← tokenize (line ++ ['\n'])
    match tokens with
    | [] => some .nothing
    | t::ts =>
      if t = ['c','d'] then some .nothing
      else if ts = [] ∧ ['e','x','i','t'] <+: t then some .quit
      else if seriesOrPar (t::ts) = 0 then some .nothing
      else if seriesOrPar (t::ts) = 1 then some .parallel
      else if findString (t::ts) ampersand ≠ -1 then
        if findString (t::ts) ampersand = ts.length then do
          let subCommands ← tokenizeForAmpersand (line ++ ['\n'])
          let _ ← subCommands.mapM tokenize
          some (.start subCommands.length)
        else some (.start ((t::ts).count ampersand))
      else some .nothing
  else none

/-- Where the shell is: at an index of the loop that reaps, before a line is read, with so many
background commands to start, at an index of the loop that kills, or gone. -/
inductive Pc
  | reap (i : ℕ)
  | prompt
  | start (n : ℕ)
  | kill (i : ℕ)
  | exited
  | interrupted
deriving DecidableEq

/-- The shell, with its background children that run, those that have finished and have not been
waited for, and those it has sent a `kill`. -/
structure Jobs where
  pc : Pc
  waitKiskeLiyeKarRhe : Fin 64 → ℤ
  pehlaNasha : Bool
  kyaAgliLinePeJaye : Bool
  running : Finset ℤ
  finished : Finset ℤ
  killed : Finset ℤ
  strayed : Bool
deriving DecidableEq

namespace Jobs

/-- The background children that have been started and not been reaped. -/
def unreaped (s : Jobs) : Finset ℤ := s.running ∪ s.finished

/-- The next round of `while (1)`. -/
def top (s : Jobs) : Jobs := { s with pc := if s.pehlaNasha then .reap 0 else .reap 64 }

def init : Jobs := ⟨.reap 64,fun _ => -1,false,false,∅,∅,∅,false⟩

end Jobs

/-- `none` is the -1 of the source. -/
def findFreeIndex (waitKiskeLiyeKarRhe : Fin 64 → ℤ) : Option (Fin 64) :=
  (List.finRange 64).find? fun i => waitKiskeLiyeKarRhe i = -1

inductive Event
  | interrupt
  | finish (pid : ℤ)
  | next
  | line (l : List Char)
  | fork (ret : ℤ)

/-- Index `i` of the loop that reaps: `waitpid` with `WNOHANG` returns 0 for a child that runs. -/
def reap (i : ℕ) (s : Jobs) : Jobs :=
  if h : i < 64 then
    if s.waitKiskeLiyeKarRhe ⟨i,h⟩ > 0 ∧ s.waitKiskeLiyeKarRhe ⟨i,h⟩ ∉ s.running then
      { s with
        pc := .reap (i + 1)
        finished := s.finished.erase (s.waitKiskeLiyeKarRhe ⟨i,h⟩)
        waitKiskeLiyeKarRhe := Function.update s.waitKiskeLiyeKarRhe ⟨i,h⟩ (-1) }
    else { s with pc := .reap (i + 1) }
  else if s.kyaAgliLinePeJaye then { s with kyaAgliLinePeJaye := false }.top
  else { s with pc := .prompt }

/-- Index `i` of the loop that kills: it ends at the first free slot. -/
def kill (i : ℕ) (s : Jobs) : Jobs :=
  if h : i < 64 then
    if s.waitKiskeLiyeKarRhe ⟨i,h⟩ ≠ -1 then
      { s with pc := .kill (i + 1), killed := insert (s.waitKiskeLiyeKarRhe ⟨i,h⟩) s.killed }
    else { s with pc := .exited }
  else { s with pc := .exited }

def readLine (line : List Char) (s : Jobs) : Jobs :=
  match action line with
  | none => { s with strayed := true }.top
  | some .nothing => s.top
  | some .parallel => if s.kyaAgliLinePeJaye then { s with pc := .interrupted } else s.top
  | some (.start n) => { s with pc := .start n }
  | some .quit => { s with pc := .kill 0 }

/-- `waitKiskeLiyeKarRhe[findFreeIndex(waitKiskeLiyeKarRhe,64)] = ret`, with `n` to start after. -/
def started (ret : ℤ) (n : ℕ) (s : Jobs) : Jobs :=
  let s' := { s with
    pc := .start n
    pehlaNasha := true
    running := if ret = -1 then s.running else insert ret s.running }
  match findFreeIndex s.waitKiskeLiyeKarRhe with
  | some i =>
    { s' with waitKiskeLiyeKarRhe := Function.update s.waitKiskeLiyeKarRhe i ret }
  | none => { s' with strayed := true }

/-- `fork` fails, or its child has a number that no child has which is still to be reaped. -/
def exec : Event → EStateM Unit Jobs Unit
  | .interrupt => modify fun s => { s with kyaAgliLinePeJaye := true }
  | .finish pid => do
    let s ← get
    if pid ∈ s.running then
      set { s with running := s.running.erase pid, finished := insert pid s.finished }
    else throw ()
  | .next => do
    let s ← get
    match s.pc with
    | .reap i => set (reap i s)
    | .start 0 => set s.top
    | .kill i => set (kill i s)
    | _ => throw ()
  | .line l => do
    let s ← get
    match s.pc with
    | .prompt => set (readLine l s)
    | _ => throw ()
  | .fork ret => do
    let s ← get
    match s.pc with
    | .start (n + 1) =>
      if ret = -1 ∨ 0 < ret ∧ ret ∉ s.unreaped then set (started ret n s) else throw ()
    | _ => throw ()

variable {s t : Jobs} {e : Event} {pid ret : ℤ} {line : List Char} {n k : ℕ}
  {slots : Fin 64 → ℤ} {i : Fin 64}

/-- No job is behind a free slot. -/
def Packed (table : Fin 64 → ℤ) : Prop := ∀ i j, i < j → table i = -1 → table j = -1

instance (table : Fin 64 → ℤ) : Decidable (Packed table) :=
  inferInstanceAs (Decidable (∀ i j, i < j → table i = -1 → table j = -1))

/-- A job is started with a free slot at hand, a line fits its buffers, and `exit` finds no job
behind a free slot. -/
def Orderly (e : Event) (s : Jobs) : Prop :=
  match e with
  | .fork _ => ∃ i, s.waitKiskeLiyeKarRhe i = -1
  | .line l => action l ≠ none ∧ (action l = some .quit → Packed s.waitKiskeLiyeKarRhe)
  | _ => True

/-- What the table promises. -/
structure Kept (s : Jobs) : Prop where
  listed : ∀ pid ∈ s.unreaped, ∃ i, s.waitKiskeLiyeKarRhe i = pid
  in_range : s.strayed = false
  reset : ∀ e, Partial (exec e) s fun _ t => ∀ i, s.waitKiskeLiyeKarRhe i ≠ -1 →
    t.waitKiskeLiyeKarRhe i ≠ s.waitKiskeLiyeKarRhe i → s.waitKiskeLiyeKarRhe i ∉ t.unreaped
  killed : s.pc = .exited → ∀ pid ∈ s.unreaped, pid ∈ s.killed

/-- The slots that are not free are the children to be reaped, each once. -/
structure Table (table : Fin 64 → ℤ) (pids : Finset ℤ) : Prop where
  listed : ∀ pid ∈ pids, ∃ i, table i = pid
  child : ∀ i, table i ≠ -1 → table i ∈ pids
  distinct : ∀ i j, table i = table j → table i ≠ -1 → i = j
  pos : ∀ pid ∈ pids, 0 < pid

/-- What has been killed when the loop is at `i`. -/
def Pc.Killing (table : Fin 64 → ℤ) (killed : Finset ℤ) : Pc → Prop
  | .kill i => Packed table ∧ ∀ j, j.val < i → table j ≠ -1 → table j ∈ killed
  | .exited => ∀ j, table j ≠ -1 → table j ∈ killed
  | _ => True

structure Inv (s : Jobs) : Prop where
  table : Table s.waitKiskeLiyeKarRhe s.unreaped
  in_range : s.strayed = false
  killing : s.pc.Killing s.waitKiskeLiyeKarRhe s.killed

theorem findFreeIndex_some (h : findFreeIndex slots = some i) : slots i = -1 := by
  simpa using List.find?_some h

theorem findFreeIndex_of_free (h : ∃ i, slots i = -1) : ∃ i, findFreeIndex slots = some i := by
  obtain ⟨i,hi⟩ := h
  rw [← Option.isSome_iff_exists,findFreeIndex,List.find?_isSome]
  exact ⟨i,List.mem_finRange i,decide_eq_true hi⟩

/-- A free slot is taken by a new child. -/
theorem Table.insert {pids : Finset ℤ} (h : Table slots pids) (hi : slots i = -1) (hpos : 0 < ret)
    (hnew : ret ∉ pids) : Table (Function.update slots i ret) (insert ret pids) where
  listed pid hp := by
    rcases Finset.mem_insert.mp hp with rfl | hp
    · exact ⟨i,Function.update_self ..⟩
    · obtain ⟨j,hj⟩ := h.listed pid hp
      have hne : j ≠ i := by
        rintro rfl
        have := h.pos pid hp
        omega
      exact ⟨j,by rw [Function.update_of_ne hne,hj]⟩
  child j hj := by
    by_cases he : j = i
    · subst he
      rw [Function.update_self]
      exact Finset.mem_insert_self ..
    · rw [Function.update_of_ne he] at hj ⊢
      exact Finset.mem_insert_of_mem (h.child j hj)
  distinct j k hjk hj := by
    have hold (j : Fin 64) (hne : j ≠ i) : Function.update slots i ret j ≠ ret := by
      rw [Function.update_of_ne hne]
      rintro he
      exact hnew (he ▸ h.child j (by omega))
    by_cases hji : j = i
    · by_cases hki : k = i
      · rw [hji,hki]
      · rw [hji,Function.update_self] at hjk
        exact (hold k hki hjk.symm).elim
    · by_cases hki : k = i
      · rw [hki,Function.update_self] at hjk
        exact (hold j hji hjk).elim
      · rw [Function.update_of_ne hji,Function.update_of_ne hki] at hjk
        rw [Function.update_of_ne hji] at hj
        exact h.distinct j k hjk hj
  pos pid hp := by
    rcases Finset.mem_insert.mp hp with rfl | hp
    · exact hpos
    · exact h.pos pid hp

/-- The slot of a child that has been reaped is free. -/
theorem Table.erase {pids : Finset ℤ} (h : Table slots pids) :
    Table (Function.update slots i (-1)) (pids.erase (slots i)) where
  listed pid hp := by
    obtain ⟨hne,hp⟩ := Finset.mem_erase.mp hp
    obtain ⟨j,rfl⟩ := h.listed pid hp
    exact ⟨j,Function.update_of_ne (fun he => hne (congrArg slots he)) ..⟩
  child j hj := by
    by_cases he : j = i
    · exact (hj (by rw [he,Function.update_self])).elim
    · rw [Function.update_of_ne he] at hj ⊢
      exact Finset.mem_erase.mpr ⟨fun ht => he (h.distinct j i ht hj),h.child j hj⟩
  distinct j k hjk hj := by
    have hji : j ≠ i := fun he => hj (by rw [he,Function.update_self])
    have hki : k ≠ i := fun he => hj (by rw [hjk,he,Function.update_self])
    rw [Function.update_of_ne hji,Function.update_of_ne hki] at hjk
    rw [Function.update_of_ne hji] at hj
    exact h.distinct j k hjk hj
  pos pid hp := h.pos pid (Finset.mem_of_mem_erase hp)

/-- The steps that `exec` makes. -/
inductive Step : Event → Jobs → Jobs → Prop
  | interrupt {s : Jobs} : Step .interrupt s { s with kyaAgliLinePeJaye := true }
  | finish {s : Jobs} {pid : ℤ} (h : pid ∈ s.running) : Step (.finish pid) s
      { s with running := s.running.erase pid, finished := insert pid s.finished }
  | reap {s : Jobs} {k : ℕ} (h : s.pc = .reap k) : Step .next s (reap k s)
  | top {s : Jobs} (h : s.pc = .start 0) : Step .next s s.top
  | kill {s : Jobs} {k : ℕ} (h : s.pc = .kill k) : Step .next s (kill k s)
  | line {s : Jobs} {l : List Char} (h : s.pc = .prompt) : Step (.line l) s (readLine l s)
  | fork {s : Jobs} {ret : ℤ} {n : ℕ} (h : s.pc = .start (n + 1))
      (hret : ret = -1 ∨ 0 < ret ∧ ret ∉ s.unreaped) : Step (.fork ret) s (started ret n s)

theorem exec_step (e : Event) (s : Jobs) : Partial (exec e) s fun _ t => Step e s t := by
  cases e with
  | interrupt => exact .interrupt
  | finish pid =>
    refine (post_bind ..).mpr ((post_get ..).mpr ?_)
    by_cases hp : pid ∈ s.running
    · rw [if_pos hp]
      exact .finish hp
    · rw [if_neg hp]
      trivial
  | next =>
    refine (post_bind ..).mpr ((post_get ..).mpr ?_)
    cases hpc : s.pc with
    | reap k => exact .reap hpc
    | start n =>
      cases n with
      | zero => exact .top hpc
      | succ n => trivial
    | kill k => exact .kill hpc
    | _ => trivial
  | line l =>
    refine (post_bind ..).mpr ((post_get ..).mpr ?_)
    cases hpc : s.pc with
    | prompt => exact .line hpc
    | _ => trivial
  | fork ret =>
    refine (post_bind ..).mpr ((post_get ..).mpr ?_)
    cases hpc : s.pc with
    | start n =>
      cases n with
      | zero => trivial
      | succ n =>
        dsimp only
        by_cases h : ret = -1 ∨ 0 < ret ∧ ret ∉ s.unreaped
        · rw [if_pos h]
          exact .fork hpc h
        · rw [if_neg h]
          trivial
    | _ => trivial

/-- What one step does to the table, to the children to be reaped, and to the mark of a store that
went astray. -/
inductive Change (e : Event) (s t : Jobs) : Prop
  | same (ht : t.waitKiskeLiyeKarRhe = s.waitKiskeLiyeKarRhe) (hu : t.unreaped = s.unreaped)
      (hs : t.strayed = s.strayed)
  | reaped (i : Fin 64) (hi : s.waitKiskeLiyeKarRhe i ≠ -1)
      (ht : t.waitKiskeLiyeKarRhe = Function.update s.waitKiskeLiyeKarRhe i (-1))
      (hu : t.unreaped = s.unreaped.erase (s.waitKiskeLiyeKarRhe i)) (hs : t.strayed = s.strayed)
  | started (i : Fin 64) (ret : ℤ) (hi : s.waitKiskeLiyeKarRhe i = -1) (hpos : 0 < ret)
      (hnew : ret ∉ s.unreaped)
      (ht : t.waitKiskeLiyeKarRhe = Function.update s.waitKiskeLiyeKarRhe i ret)
      (hu : t.unreaped = insert ret s.unreaped) (hs : t.strayed = s.strayed)
  | astray (h : ¬ Orderly e s) (ht : t.waitKiskeLiyeKarRhe = s.waitKiskeLiyeKarRhe)

theorem unreaped_finish (h : pid ∈ s.running) :
    s.running.erase pid ∪ insert pid s.finished = s.unreaped := by
  rw [Finset.union_insert,← Finset.insert_union,Finset.insert_erase h]
  rfl

theorem reap_change (k : ℕ) (s : Jobs) : Change .next s (reap k s) := by
  unfold reap
  by_cases hk : k < 64
  · rw [dif_pos hk]
    by_cases hpid : s.waitKiskeLiyeKarRhe ⟨k,hk⟩ > 0 ∧ s.waitKiskeLiyeKarRhe ⟨k,hk⟩ ∉ s.running
    · rw [if_pos hpid]
      refine .reaped ⟨k,hk⟩ (by omega) rfl ?_ rfl
      rw [Jobs.unreaped,Jobs.unreaped,Finset.erase_union_distrib,Finset.erase_eq_of_notMem hpid.2]
    · rw [if_neg hpid]
      exact .same rfl rfl rfl
  · rw [dif_neg hk]
    by_cases hf : s.kyaAgliLinePeJaye = true
    · rw [if_pos hf]
      exact .same rfl rfl rfl
    · rw [if_neg hf]
      exact .same rfl rfl rfl

theorem kill_change (k : ℕ) (s : Jobs) : Change .next s (kill k s) := by
  unfold kill
  split_ifs <;> exact .same rfl rfl rfl

theorem readLine_change (line : List Char) (s : Jobs) : Change (.line line) s (readLine line s) := by
  unfold readLine
  cases ha : action line with
  | none => exact .astray (fun h => h.1 ha) rfl
  | some a =>
    cases a with
    | nothing => exact .same rfl rfl rfl
    | parallel =>
      dsimp only
      split_ifs <;> exact .same rfl rfl rfl
    | start n => exact .same rfl rfl rfl
    | quit => exact .same rfl rfl rfl

theorem started_change (n : ℕ) (s : Jobs) (h : ret = -1 ∨ 0 < ret ∧ ret ∉ s.unreaped) :
    Change (.fork ret) s (started ret n s) := by
  unfold started
  cases hf : findFreeIndex s.waitKiskeLiyeKarRhe with
  | none =>
    refine .astray (fun hfree => ?_) rfl
    obtain ⟨i,hi⟩ := findFreeIndex_of_free hfree
    rw [hf] at hi
    cases hi
  | some i =>
    have hi := findFreeIndex_some hf
    rcases h with rfl | ⟨hpos,hnew⟩
    · refine .same ?_ (by rw [Jobs.unreaped,if_pos rfl]; rfl) rfl
      exact Function.update_eq_self_iff.mpr hi.symm
    · refine .started i ret hi hpos hnew rfl ?_ rfl
      rw [Jobs.unreaped,if_neg (by omega),Finset.insert_union]
      rfl

theorem Step.change (h : Step e s t) : Change e s t := by
  cases h with
  | interrupt => exact .same rfl rfl rfl
  | finish hp => exact .same rfl (unreaped_finish hp) rfl
  | reap _ => exact reap_change ..
  | top _ => exact .same rfl rfl rfl
  | kill _ => exact kill_change ..
  | line _ => exact readLine_change ..
  | fork _ h => exact started_change _ s h

theorem Change.table (h : Change e s t) (ho : Orderly e s)
    (hs : Table s.waitKiskeLiyeKarRhe s.unreaped) : Table t.waitKiskeLiyeKarRhe t.unreaped := by
  cases h with
  | same ht hu => rw [ht,hu]; exact hs
  | reaped i _ ht hu => rw [ht,hu]; exact hs.erase
  | started i ret hi hpos hnew ht hu => rw [ht,hu]; exact hs.insert hi hpos hnew
  | astray h => exact (h ho).elim

theorem Change.strayed (h : Change e s t) (ho : Orderly e s) : t.strayed = s.strayed := by
  cases h with
  | same _ _ hs => exact hs
  | reaped _ _ _ _ hs => exact hs
  | started _ _ _ _ _ _ _ hs => exact hs
  | astray h => exact (h ho).elim

/-- A slot is emptied only of a child that has been reaped. -/
theorem Change.reset (h : Change e s t) (hi : s.waitKiskeLiyeKarRhe i ≠ -1)
    (hne : t.waitKiskeLiyeKarRhe i ≠ s.waitKiskeLiyeKarRhe i) :
    s.waitKiskeLiyeKarRhe i ∉ t.unreaped := by
  cases h with
  | same ht => exact (hne (by rw [ht])).elim
  | reaped j _ ht hu =>
    have hij : i = j := by
      by_contra hij
      exact hne (by rw [ht,Function.update_of_ne hij])
    rw [hu,hij]
    exact Finset.notMem_erase _ _
  | started j ret hj _ _ ht =>
    have hij : i ≠ j := by
      rintro rfl
      exact hi hj
    exact (hne (by rw [ht,Function.update_of_ne hij])).elim
  | astray _ ht => exact (hne (by rw [ht])).elim

/-- The loop of `exit` gets to all jobs if there is none behind a free slot. -/
theorem kill_killing (h : (Pc.kill k).Killing s.waitKiskeLiyeKarRhe s.killed) :
    (kill k s).pc.Killing (kill k s).waitKiskeLiyeKarRhe (kill k s).killed := by
  obtain ⟨hpacked,hdone⟩ := h
  unfold kill
  by_cases hk : k < 64
  · rw [dif_pos hk]
    by_cases hfree : s.waitKiskeLiyeKarRhe ⟨k,hk⟩ ≠ -1
    · rw [if_pos hfree]
      refine ⟨hpacked,fun j hj hne => Finset.mem_insert.mpr ?_⟩
      rcases Nat.lt_succ_iff_lt_or_eq.mp hj with hlt | heq
      · exact .inr (hdone j hlt hne)
      · exact .inl (congrArg s.waitKiskeLiyeKarRhe (Fin.ext heq))
    · rw [if_neg hfree]
      refine fun j hne => hdone j ?_ hne
      by_contra hj
      rcases Nat.lt_or_eq_of_le (not_lt.mp hj) with hlt | heq
      · exact hne (hpacked ⟨k,hk⟩ j hlt (not_not.mp hfree))
      · exact hfree (by rw [show (⟨k,hk⟩ : Fin 64) = j from Fin.ext heq]; exact hne)
  · rw [dif_neg hk]
    exact fun j hne => hdone j (by omega) hne

/-- Elsewhere nothing is said about what has been killed. -/
theorem top_killing (s : Jobs) : s.top.pc.Killing s.waitKiskeLiyeKarRhe s.killed := by
  unfold Jobs.top
  split_ifs <;> trivial

theorem Step.killing (h : Step e s t) (ho : Orderly e s)
    (hs : s.pc.Killing s.waitKiskeLiyeKarRhe s.killed) :
    t.pc.Killing t.waitKiskeLiyeKarRhe t.killed := by
  cases h with
  | interrupt => exact hs
  | finish _ => exact hs
  | @reap _ k _ =>
    unfold Shell.reap
    split_ifs
    · trivial
    · trivial
    · exact top_killing { s with kyaAgliLinePeJaye := false }
    · trivial
  | top _ => exact top_killing s
  | kill hpc => exact kill_killing (hpc ▸ hs)
  | @line _ l _ =>
    unfold readLine
    cases ha : action l with
    | none => exact (ho.1 ha).elim
    | some a =>
      cases a with
      | nothing => exact top_killing s
      | parallel =>
        dsimp only
        split_ifs
        · trivial
        · exact top_killing s
      | start n => trivial
      | quit => exact ⟨ho.2 ha,fun j hj => (Nat.not_lt_zero _ hj).elim⟩
  | fork _ _ =>
    unfold started
    cases findFreeIndex s.waitKiskeLiyeKarRhe <;> trivial

theorem exec_inv (e : Event) (h : Inv s) (ho : Orderly e s) :
    Partial (exec e) s fun _ t => Inv t :=
  (exec_step e s).imp fun _ _ hstep => ⟨hstep.change.table ho h.table,
    (hstep.change.strayed ho).trans h.in_range,hstep.killing ho h.killing⟩

theorem init_inv : Inv .init where
  table := ⟨nofun,fun _ h => (h rfl).elim,fun _ _ _ h => (h rfl).elim,nofun⟩
  in_range := rfl
  killing := trivial

theorem Inv.kept (h : Inv s) : Kept s where
  listed := h.table.listed
  in_range := h.in_range
  reset e := (exec_step e s).imp fun _ _ hstep _ => hstep.change.reset
  killed hpc pid hp := by
    obtain ⟨i,rfl⟩ := h.table.listed pid hp
    have hk := h.killing
    rw [hpc] at hk
    have := h.table.pos _ hp
    exact hk i (by omega)

/-- In every run in which a job is started only with a free slot at hand, and `exit` finds no job
behind a free slot, the table keeps what it promises. -/
theorem jobs_kept (h : Reach exec Orderly (fun s => s = Jobs.init) s) : Kept s := by
  have hi : Inv s := h.invariant (I := Inv) (fun _ hs => by rw [hs]; exact init_inv)
    fun e _ hi ho => exec_inv e hi ho
  exact hi.kept

/-- One job is started. -/
theorem jobs_kept_one : ∃ s, Reach exec Orderly (fun s => s = Jobs.init) s ∧
    s.unreaped = {101} ∧ Kept s := by
  have h1 : Reach exec Orderly (fun s => s = Jobs.init) { Jobs.init with pc := .prompt } :=
    .step .next (.init rfl) trivial rfl
  have h2 : Reach exec Orderly (fun s => s = Jobs.init) { Jobs.init with pc := .start 1 } :=
    .step (.line "ls &".toList) h1 ⟨by decide,by decide⟩ rfl
  have h3 : Reach exec Orderly (fun s => s = Jobs.init)
      (started 101 0 { Jobs.init with pc := .start 1 }) :=
    .step (.fork 101) h2 ⟨0,rfl⟩ rfl
  exact ⟨_,h3,by decide,jobs_kept h3⟩

/-- Two jobs are started, the first one finishes and is reaped, and the shell is left. -/
def holeRun : List Event :=
  [.next,.line "a & b &".toList,.fork 101,.fork 102,.finish 101,.next] ++ List.replicate 65 .next ++
    [.line "exit".toList,.next]

/-- Lines of 31, 31 and 3 jobs, of which none finishes. -/
def fullRun : List Event :=
  let line n := (List.replicate n "a & ".toList).flatten ++ ['a']
  [.next,.line (line 31)] ++ (List.range 31).map (fun i => .fork (101 + i)) ++
    List.replicate 66 .next ++ [.line (line 31)] ++ (List.range 31).map (fun i => .fork (201 + i)) ++
    List.replicate 66 .next ++ [.line (line 3)] ++ (List.range 3).map (fun i => .fork (301 + i))

/-- `exit` leaves the second job alone; and the last of 65 jobs is written in front of the table. -/
theorem jobs_lost :
    (∃ rs s, runOps exec holeRun .init = .ok rs s ∧ s.pc = .exited ∧ 102 ∈ s.unreaped ∧
      102 ∉ s.killed) ∧
    ∃ rs s, runOps exec fullRun .init = .ok rs s ∧ s.strayed = true ∧ 303 ∈ s.unreaped ∧
      ∀ i, s.waitKiskeLiyeKarRhe i ≠ 303 := by
  constructor
  · obtain ⟨rs,s,hs,hp⟩ := exists_of_returns (by decide +kernel :
      returns (runOps exec holeRun) .init (fun _ s => decide
        (s.pc = .exited ∧ 102 ∈ s.unreaped ∧ 102 ∉ s.killed)) = true)
    exact ⟨rs,s,hs,of_decide_eq_true hp⟩
  · obtain ⟨rs,s,hs,hp⟩ := exists_of_returns (by decide +kernel :
      returns (runOps exec fullRun) .init (fun _ s => decide
        (s.strayed = true ∧ 303 ∈ s.unreaped ∧ ∀ i, s.waitKiskeLiyeKarRhe i ≠ 303)) = true)
    exact ⟨rs,s,hs,of_decide_eq_true hp⟩

end ResumePointers.Shell

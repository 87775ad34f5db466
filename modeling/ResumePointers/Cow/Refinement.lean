import ResumePointers.Cow.Run

/-! Copy-on-write fork refines the fork that copies at once: as long as `kalloc` does not
fail, no process of a family can tell the two apart. -/
namespace ResumePointers.Cow

open Xv6 Kernel

/-- What `p` reads at `va` through its page table as it is, if it may look there. -/
def peek (s : Kernel Kmem) (p : Slot) (va : ℕ) : Option UInt8 :=
  if (s.proc p).live then
    (s.proc p).pgdir.bind fun d => (translate d va false).map fun f => s.mem.bytes f (va % PGSIZE)
  else none

/-- From here on a failure of `kalloc` is noted in `dry`. -/
def watched (s : Kernel Kmem) : Kernel Kmem := { s with mem := { s.mem with dry := false } }

variable [KernelImage] {M : Finset Frame} {s t : Kernel Kmem} {p : Slot} {out : List Frame}

theorem watched_inv (h : Inv M s) : Inv M (watched s) := by
  have hacc : Kmem.Counted M s.mem _ := h.wf.held.acc
  exact h.congr ⟨⟨⟨hacc.ledger,hacc.count,hacc.use_lock,hacc.range⟩,h.wf.held.sole⟩,h.wf.slot⟩
    rfl (fun q hl => ⟨hl,rfl,rfl⟩) h.alive

omit [KernelImage] in
theorem eager_watched (s : Kernel Kmem) : eager (watched s) = eager s := by
  ext1
  · funext q
    exact absProc_congr fun _ _ => rfl
  all_goals rfl

/-- A process reads what the abstract machine has for it. -/
theorem peek_eq (h : Inv M s) (p : Slot) (va : ℕ) : peek s p va = (eager s).read p va := by
  unfold peek
  by_cases hl : (s.proc p).live
  · obtain ⟨d,hd,hk⟩ := (h.wf.slot p).dir hl
    rw [if_pos hl,hd,Option.bind_some]
    cases htr : translate d va false with
    | some f =>
      rw [Eager.read,eager_read h hl hd htr]
      rfl
    | none =>
      rw [Eager.read,eager_mem hl hd,view,Option.map_none]
      by_cases hv : pageOf va < USERPAGES
      · rw [if_pos hv]
        cases hget : d.get (pageOf va) with
        | none => rfl
        | some pte =>
          have hu : pte.u = false := by
            by_contra hne
            have hpage : translate d va false = some pte.frame :=
              translate_eq_some.mpr ⟨pte,hget,by simpa using hne,by simp,rfl⟩
            rw [htr] at hpage
            cases hpage
          simp [hu]
      · rw [if_neg hv]
  · rw [if_neg hl,Eager.read,Eager.mem]
    have hn : ((eager s).proc p).pgdir = none := if_neg hl
    rw [hn]
    rfl

omit [KernelImage] in
/-- A byte written is read back by its process there, and nothing else has changed. -/
theorem Eager.read_write {a : Eager} {va : ℕ} (b : UInt8) (h : (a.read p va).isSome) (q : Slot)
    (w : ℕ) : (a.write p va b).read q w = if q = p ∧ w = va then some b else a.read q w := by
  cases hm : a.mem p (pageOf va) with
  | none => simp [Eager.read,hm] at h
  | some pg =>
    have hu : pg.user = true := by
      by_contra hne
      simp [Eager.read,hm,hne] at h
    have hwrite : (a.write p va b).mem q = if q = p then
        Function.update (a.mem p) (pageOf va)
          (some { pg with bytes := Function.update pg.bytes (va % PGSIZE) b })
        else a.mem q := by
      rw [Eager.write,hm]
      dsimp only
      rw [Eager.mem,Ptable.setProc]
      dsimp only
      rw [Function.update_apply]
      split <;> rfl
    rw [Eager.read,hwrite]
    by_cases hq : q = p
    · subst hq
      rw [if_pos rfl]
      by_cases hpage : pageOf w = pageOf va
      · rw [hpage,Function.update_self]
        by_cases hw : w = va
        · subst hw
          simp [hu]
        · have hoff : w % PGSIZE ≠ va % PGSIZE := fun hoff => hw <| by
            rw [← Nat.div_add_mod w PGSIZE,← Nat.div_add_mod va PGSIZE,hoff]
            exact congrArg (PGSIZE * · + _) hpage
          rw [if_neg fun hc => hw hc.2,Eager.read,hpage,hm]
          simp [hu,Function.update_of_ne hoff]
      · rw [Function.update_of_ne hpage,if_neg fun hc => hpage (by rw [hc.2]),Eager.read]
    · rw [if_neg hq,if_neg fun hc => hq hc.1,Eager.read]

/-- A store to a page that its process may read succeeds unless pages run out, and changes
this one byte, for this one process. -/
theorem store_peek {va : ℕ} (b : UInt8) (h : Inv M s) (hl : (s.proc p).live)
    (hva : (peek s p va).isSome) :
    Post (store p va b) s
      (fun r t => r = some 0 ∧ (t.mem.dry = false →
        ∀ q w, peek t q w = if q = p ∧ w = va then some b else peek s q w))
      fun _ t => t.mem.dry = true := by
  obtain ⟨d,hd,-⟩ := (h.wf.slot p).dir hl
  have hread : ((eager s).read p va).isSome := by rwa [← peek_eq h]
  refine (store_kept b h hl hd).mono ?_ ?_
  · rintro r t ⟨rfl,⟨hinv,-,heq⟩,-⟩
    refine ⟨rfl,fun hnd q w => ?_⟩
    have hwrite := congrArg Prod.snd (heq (by simp [hnd]))
    dsimp only at hwrite
    rw [peek_eq hinv,peek_eq h,← hwrite,Eager.read_write b hread]
  · rintro e t ⟨-,hdry⟩
    refine hdry ?_
    simpa [peek,hl,hd] using hva

theorem run_family {ops : List Op} {rs : List (Option ℤ)} (h : Inv M s)
    (hfam : ∀ op ∈ ops, op.family) (hrun : runOps step ops (watched s) = .ok rs t)
    (hdry : t.mem.dry = false) :
    Inv M t ∧ runPure Eager.step ops (eager s) = (rs,eager t) := by
  have hstep : ∀ op u, op.family → Inv M u → Partial (step op) u fun r v =>
      Inv M v ∧ (u.mem.dry = true → v.mem.dry = true) ∧
      (¬ v.mem.dry = true → Eager.step op (eager u) = (r,eager v)) := fun op u hf hi =>
    (step_stepped op hi).mono (fun r v hv => ⟨hv.1,hv.2.1,hv.2.2.1 hf⟩) fun _ _ _ => trivial
  have hsim := runOps_simulation hstep hfam (watched_inv h) hrun
  rw [eager_watched] at hsim
  exact ⟨hsim.1,hsim.2.2 (by simp [hdry])⟩

/-- Of every family of processes that a run has led to, and whatever its members do from then
on while `kalloc` does not fail: the answers and the bytes that each member reads are those
of the machine that copies at once. A store to a page that can be read fails for want of
pages only, and it changes one byte of one process. -/
theorem cow_refines_eager {ops : List Op} {rs : List (Option ℤ)} (h : Run out s)
    (hfam : ∀ op ∈ ops, op.family) (hrun : runOps step ops (watched s) = .ok rs t)
    (hdry : t.mem.dry = false) :
    rs = (runPure Eager.step ops (eager s)).1 ∧
    (∀ p va, peek t p va = (runPure Eager.step ops (eager s)).2.read p va) ∧
    ∀ p (va : UInt32) b, (t.proc p).state = .RUNNABLE → (peek t p va.toNat).isSome →
      Post (step (.store p va b)) t
        (fun r u => r = some 0 ∧ (u.mem.dry = false →
          ∀ q w, peek u q w = if q = p ∧ w = va.toNat then some b else peek t q w))
        fun _ u => u.mem.dry = true := by
  obtain ⟨hinv,heq⟩ := run_family (run_inv h) hfam hrun hdry
  rw [heq]
  refine ⟨rfl,fun p va => peek_eq hinv p va,fun p va b hp hva => ?_⟩
  exact whenRunnable_post (fun hn => (hn hp).elim) fun _ =>
    store_peek b hinv (Proc.live_of_state hp (by decide) (by decide)) hva

/-- A page that is writable takes the store at once. -/
theorem store_ok {d : PageDir} {va : ℕ} {f : Frame} (b : UInt8) (hd : (s.proc p).pgdir = some d)
    (hf : translate d va true = some f) : ∃ t, store p va b s = .ok (some 0) t ∧
      t.toPtable = s.toPtable ∧ t.mem.dry = s.mem.dry := by
  refine ⟨{ s with mem := setPage f (Function.update (page s.mem f) (va % PGSIZE) b) s.mem },
    ?_,rfl,rfl⟩
  simp only [store,touch,bind,EStateM.bind,get_run,hd,Option.bind_some,hf]
  rfl

omit [KernelImage] in
/-- The first process stores a byte in its page. -/
theorem cow_refines_eager_first : ∃ (_ : KernelImage) (out : List Frame) (s t : Kernel Kmem),
    Booted out s ∧ runOps step [.store firstSlot 0 7] (watched s) = .ok [some 0] t ∧
    ∀ p va, peek t p va =
      (runPure Eager.step [.store firstSlot 0 7] (eager s)).2.read p va := by
  let _ := KernelImage.small
  obtain ⟨out,s,hb⟩ := exists_booted
  obtain ⟨-,d,mem,f,hf⟩ := booted_first hb
  have hproc : (watched s).proc firstSlot = firstProc f d := hf.proc_first
  have htr : translate d 0 true = some mem :=
    translate_eq_some.mpr ⟨_,hf.get 0 (by decide),rfl,fun _ => rfl,rfl⟩
  obtain ⟨t,ht,-,hdry⟩ := store_ok (s := watched s) (p := firstSlot) 7 (by rw [hproc]; rfl) htr
  have hrun : runOps step [.store firstSlot 0 7] (watched s) = .ok [some 0] t := by
    have hstep : step (.store firstSlot 0 7) (watched s) = .ok (some 0) t := by
      rw [← ht]
      have hr : ((watched s).proc firstSlot).state = .RUNNABLE := by rw [hproc]; rfl
      simp only [step,whenRunnable,bind,EStateM.bind,get_run,hr,
        if_true]
      rfl
    simp only [runOps,bind,EStateM.bind,hstep]
    rfl
  have h := cow_refines_eager (.init hb) (fun op ho => by
    rw [List.mem_singleton] at ho; subst ho; trivial) hrun (by rw [hdry]; rfl)
  exact ⟨_,out,s,t,hb,hrun,h.2.1⟩

end ResumePointers.Cow

import ResumePointers.Sync.WriterPref

/-! What the preference of `os/rwlock-writer-pref.cpp` comes to: whatever the others do, a reader that
comes after a writer has announced itself waits for that writer. -/
namespace ResumePointers.Sync.WriterPref

open Threads

/-- In `ReaderLock`, and not yet past a look that found no writer. -/
def Pc.entering : Pc → Bool
  | .rLock | .rTest | .rBusy | .rSpin => true
  | _ => false

variable {Tid : Type} [Fintype Tid] [DecidableEq Tid] {c d : Threads Tid Counters Pc} {t u v : Tid}
  {p q : Pc}

/-- `numWrit` is the number of writers that have announced themselves. -/
def Counted (c : Threads Tid Counters Pc) : Prop := c.shared.numWrit = count Pc.writes c.pc

/-- The writers that have announced themselves are counted, `t` is one of them, and `u` is on its
way into `ReaderLock`. -/
structure Behind (t u : Tid) (c : Threads Tid Counters Pc) : Prop where
  counted : Counted c
  writer : (c.pc t).writes = true
  reader : (c.pc u).entering = true

theorem code_call {next : List Pc} (hc : code q = .call next) (hp : p ∈ next) :
    p.writes = q.writes ∧ q.entering = false := by
  cases q with
  | idle =>
    cases hc
    rcases List.mem_cons.mp hp with rfl | hp
    · exact ⟨rfl,rfl⟩
    · obtain rfl := List.mem_singleton.mp hp
      exact ⟨rfl,rfl⟩
  | reading =>
    cases hc
    obtain rfl := List.mem_singleton.mp hp
    exact ⟨rfl,rfl⟩
  | w q =>
    cases q with
    | writing =>
      cases hc
      obtain rfl := List.mem_singleton.mp hp
      exact ⟨rfl,rfl⟩
    | fallen =>
      cases hc
      obtain rfl := List.mem_singleton.mp hp
      exact ⟨rfl,rfl⟩
    | _ => cases hc
  | _ => cases hc

theorem code_lock (hc : code q = .lock p) :
    p.writes = q.writes ∧ (q.entering = true → p.entering = true) := by
  cases q with
  | w q => cases q <;> cases hc <;> exact ⟨rfl,id⟩
  | _ => cases hc <;> exact ⟨rfl,id⟩

theorem code_unlock (hc : code q = .unlock p) :
    p.writes = q.writes ∧ (q.entering = true → p.entering = true) := by
  cases q with
  | w q => cases q <;> cases hc <;> exact ⟨rfl,id⟩
  | rFree => cases hc; exact ⟨rfl,nofun⟩
  | _ => cases hc <;> exact ⟨rfl,id⟩

/-- An instruction counts a writer as it comes and goes, only the decrement of `WriterUnlock` lets it
go, and with a writer counted no look of a reader finds none. -/
theorem code_act {f : Counters → Counters} {next : Counters → Pc} (hc : code q = .act f next)
    (s : Counters) :
    (f s).numWrit + (q.writes.toNat : ℤ) = s.numWrit + (next s).writes.toNat ∧
      (q.writes = true → q ≠ .w .dec → (next s).writes = true) ∧
      (q.entering = true → s.numWrit > 0 → (next s).entering = true) := by
  cases q with
  | rTest =>
    cases hc
    dsimp only [id]
    refine ⟨by split <;> rfl,(fun h => by cases h),fun _ hpos => ?_⟩
    rw [if_pos hpos]
    rfl
  | rSpin =>
    cases hc
    dsimp only [id]
    refine ⟨by split <;> rfl,(fun h => by cases h),fun _ hpos => ?_⟩
    rw [if_pos hpos]
    rfl
  | rInc => cases hc; exact ⟨rfl,(fun h => by cases h),(fun h => by cases h)⟩
  | ruDec => cases hc; exact ⟨rfl,(fun h => by cases h),(fun h => by cases h)⟩
  | w q =>
    cases q with
    | inc => cases hc; exact ⟨Int.add_zero _,(fun h => by cases h),(fun h => by cases h)⟩
    | dec =>
      cases hc
      exact ⟨by simp [Pc.writes,Writer.counts],fun _ h => (h rfl).elim,(fun h => by cases h)⟩
    | test => cases hc; dsimp only [id]; split <;> exact ⟨rfl,fun _ _ => rfl,(fun h => by cases h)⟩
    | loopRead => cases hc; dsimp only [id]; split <;> exact ⟨rfl,fun _ _ => rfl,(fun h => by cases h)⟩
    | loopWrit => cases hc; dsimp only [id]; split <;> exact ⟨rfl,fun _ _ => rfl,(fun h => by cases h)⟩
    | _ => cases hc
  | _ => cases hc

omit [Fintype Tid] in
/-- A property of a thread's program counter that a step of any thread keeps. -/
theorem update_pc {P : Pc → Bool} (hp : P (c.pc t) = true) (hv : v = t → P p = true) :
    P (Function.update c.pc v p t) = true := by
  by_cases htv : t = v
  · subst htv
    rw [Function.update_self]
    exact hv rfl
  · rwa [Function.update_of_ne htv]

/-- Thread `v` goes on to `p`. -/
theorem counted_step (h : Counted c) {s : Counters}
    (hs : s.numWrit + ((c.pc v).writes.toNat : ℤ) = c.shared.numWrit + p.writes.toNat) :
    s.numWrit = count Pc.writes (Function.update c.pc v p) := by
  unfold Counted at h
  have hcount := count_update Pc.writes c.pc v p
  omega

theorem exec_counted (op : Sched Tid Pc) (h : Counted c) :
    Partial (exec code op) c fun _ d => Counted d := by
  refine quiet.post (fun v p _ => ?_) fun v _ => ?_
  · exact call_post fun next hc hp => counted_step h (s := c.shared) (by rw [(code_call hc hp).1])
  · refine run_post (fun p hc _ => ?_) (fun p hc => ?_) fun f next hc => ?_
    · exact counted_step h (s := c.shared) (by rw [(code_lock hc).1])
    · exact counted_step h (s := c.shared) (by rw [(code_unlock hc).1])
    · exact counted_step h (code_act hc c.shared).1

/-- The step is not the decrement with which `t` leaves. -/
def Stays (t : Tid) (op : Sched Tid Pc) (c : Threads Tid Counters Pc) : Prop :=
  op = .run t → c.pc t ≠ .w .dec

theorem Behind.step (h : Behind t u c) (op : Sched Tid Pc) (hok : Stays t op c) :
    Partial (exec code op) c fun _ d => Behind t u d := by
  have hpos : c.shared.numWrit > 0 := by
    have := count_pos h.writer
    have hcount : c.shared.numWrit = count Pc.writes c.pc := h.counted
    omega
  refine ((exec_counted op h.counted).and (?_ : Partial (exec code op) c fun _ d =>
    (d.pc t).writes = true ∧ (d.pc u).entering = true)).mono
    (fun _ d hd => ⟨hd.1,hd.2.1,hd.2.2⟩) fun _ _ _ => trivial
  refine quiet.post (fun v p _ => ?_) fun v ho => ?_
  · refine call_post fun next hc hp => ?_
    obtain ⟨hw,he⟩ := code_call hc hp
    refine ⟨update_pc h.writer fun hv => ?_,update_pc h.reader fun hv => ?_⟩
    · subst hv
      rw [hw,h.writer]
    · subst hv
      rw [h.reader] at he
      cases he
  · subst ho
    refine run_post (fun p hc _ => ?_) (fun p hc => ?_) fun f next hc => ?_
    · obtain ⟨hw,he⟩ := code_lock hc
      exact ⟨update_pc h.writer fun hv => by subst hv; rw [hw,h.writer],
        update_pc h.reader fun hv => by subst hv; exact he h.reader⟩
    · obtain ⟨hw,he⟩ := code_unlock hc
      exact ⟨update_pc h.writer fun hv => by subst hv; rw [hw,h.writer],
        update_pc h.reader fun hv => by subst hv; exact he h.reader⟩
    · obtain ⟨-,hw,he⟩ := code_act hc c.shared
      exact ⟨update_pc h.writer fun hv => by subst hv; exact hw h.writer (hok rfl),
        update_pc h.reader fun hv => by subst hv; exact he h.reader hpos⟩

/-- All interleavings. -/
abbrev AnyRun (Tid : Type) [Fintype Tid] [DecidableEq Tid] : Threads Tid Counters Pc → Prop :=
  Reach (exec code) (fun _ _ => True) fun c => c = init Tid

theorem any_run_counted (h : AnyRun Tid c) : Counted c :=
  h.invariant (I := Counted) (fun _ hs => hs ▸ init_inv.writes) fun op _ hi _ => exec_counted op hi

/-- In every interleaving, where a reader begins `ReaderLock` after a writer has announced itself, it
is in `ReaderLock` as long as that writer has not taken its announcement back. -/
theorem reader_waits_for_writer {c₁ : Threads Tid Counters Pc} (h : AnyRun Tid c)
    (hw : (c.pc t).writes = true) (hb : exec code (.call u .rLock) c = .ok () c₁)
    (hrun : Reach (exec code) (Stays t) (fun s => s = c₁) d) :
    (d.pc u).entering = true ∧ (d.pc t).writes = true := by
  have hbegin : Behind t u c₁ := by
    have hpost : Partial (exec code (.call u .rLock)) c fun _ d => Behind t u d := by
      refine call_post fun next hc hp => ?_
      have hne : u ≠ t := by
        rintro rfl
        have hidle := (code_call hc hp).1
        rw [hw] at hidle
        cases hidle
      refine ⟨counted_step (any_run_counted h) (s := c.shared) (by rw [(code_call hc hp).1]),?_,?_⟩
      · exact update_pc hw fun hv => (hne hv).elim
      · rw [go_pc,Function.update_self]
        rfl
    exact hpost.of_ok hb
  have hend : Behind t u d := hrun.invariant (I := Behind t u) (fun _ hs => by rw [hs]; exact hbegin)
    fun op _ hi ho => hi.step op ho
  exact ⟨hend.reader,hend.writer⟩

/-- Thread 0 announces itself, thread 1 begins `ReaderLock`, and thread 0 goes on. -/
theorem reader_waits_for_writer_first : ∃ c c₁ d : Threads (Fin 2) Counters Pc,
    AnyRun (Fin 2) c ∧ exec code (.call 1 .rLock) c = .ok () c₁ ∧ d.pc 0 = .w .writing ∧
    (d.pc 1).entering = true ∧ (d.pc 0).writes = true := by
  have hinit : AnyRun (Fin 2) (init (Fin 2)) := .init rfl
  obtain ⟨c,hc,hp⟩ := exists_of_reaches hinit (by decide +kernel :
    reaches (exec code) (fun _ _ => True) (fun c => decide ((c.pc 0).writes = true) &&
      returns (exec code (.call 1 .rLock)) c fun _ c₁ => decide (c₁.pc 0 ≠ .w .dec) &&
        returns (exec code (.run 0)) c₁ fun _ d => decide (d.pc 0 = .w .writing))
      [.call 0 (.w .lock),.run 0,.run 0] (init (Fin 2)) = true)
  obtain ⟨hw,hp⟩ := (Bool.and_eq_true _ _).mp hp
  obtain ⟨⟨⟩,c₁,hb,hp⟩ := exists_of_returns hp
  obtain ⟨hstay,hp⟩ := (Bool.and_eq_true _ _).mp hp
  obtain ⟨⟨⟩,d,hd,hp⟩ := exists_of_returns hp
  have hrun : Reach (exec code) (Stays 0) (fun s => s = c₁) d :=
    .step (.run 0) (.init rfl) (fun _ => of_decide_eq_true hstay) hd
  exact ⟨c,c₁,d,hc,hb,of_decide_eq_true hp,
    reader_waits_for_writer hc (of_decide_eq_true hw) hb hrun⟩

end ResumePointers.Sync.WriterPref

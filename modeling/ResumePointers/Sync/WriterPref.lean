import ResumePointers.Sync.Rwlock

/-! The read-write lock that prefers writers (`os/rwlock-writer-pref.cpp`): a reader looks for
writers first and counts itself later, with the mutex released in between. -/
namespace ResumePointers.Sync.WriterPref

open Threads

inductive Pc
  | idle
  | rLock
  | rTest
  | rBusy
  | rFree
  | rSpin
  | rInc
  | reading
  | ruDec
  | w (p : Writer)
deriving DecidableEq

/-- `ReaderLock`, `ReaderUnlock`, and what a writer does. -/
def code : Pc → Instr Counters Pc
  | .idle => .call [.rLock,.w .lock]
  | .rLock => .lock .rTest
  | .rTest => .act id fun s => if s.numWrit > 0 then .rBusy else .rFree
  | .rBusy => .unlock .rSpin
  | .rFree => .unlock .rInc
  | .rSpin => .act id fun s => if s.numWrit > 0 then .rSpin else .rInc
  | .rInc => .act (fun s => { s with numRead := s.numRead + 1 }) fun _ => .reading
  | .reading => .call [.ruDec]
  | .ruDec => .act (fun s => { s with numRead := s.numRead - 1 }) fun _ => .idle
  | .w p => Writer.code .idle .w p

def Pc.holds : Pc → Bool
  | .rTest | .rBusy | .rFree => true
  | .w p => p.holds
  | _ => false

/-- A reader past its increment and before its decrement. -/
def Pc.reads : Pc → Bool
  | .reading | .ruDec => true
  | _ => false

/-- A writer past its increment and before its decrement. -/
def Pc.writes : Pc → Bool
  | .w p => p.counts
  | _ => false

/-- A reader that has found no writer, and has not counted itself. -/
def Pc.pending : Pc → Bool
  | .rFree | .rInc => true
  | _ => false

def Pc.inside : Pc → Bool
  | .w p => p.inside
  | _ => false

variable {Tid : Type} [Fintype Tid] [DecidableEq Tid] {c : Threads Tid Counters Pc} {t u : Tid}
  {p q : Pc}

/-- `InitalizeReadWriteLock`, before any thread has made a call. -/
def init (Tid : Type) : Threads Tid Counters Pc := ⟨⟨0,0⟩,none,fun _ => .idle⟩

structure Inv (c : Threads Tid Counters Pc) : Prop where
  owned : Owned Pc.holds c.owner c.pc
  reads : c.shared.numRead = count Pc.reads c.pc
  writes : c.shared.numWrit = count Pc.writes c.pc
  clear : ∀ t, c.pc t = .w .writing → c.shared.numRead = 0 ∧ ∀ u, (c.pc u).pending = false
  never : ∀ t, c.pc t ≠ .w .fallen

omit [DecidableEq Tid] in
theorem init_inv : Inv (init Tid) where
  owned t := iff_of_false nofun nofun
  reads := by rw [init,count_eq_zero fun _ => rfl]; rfl
  writes := by rw [init,count_eq_zero fun _ => rfl]; rfl
  clear _ h := by cases h
  never _ := nofun

/-- A thread at `q` goes on to `p`. -/
theorem Inv.step (h : Inv c) (hq : c.pc t = q) {o : Option Tid} {s : Counters}
    (ho : Owned Pc.holds o (Function.update c.pc t p))
    (hr : s.numRead + (q.reads.toNat : ℤ) = c.shared.numRead + p.reads.toNat)
    (hw : s.numWrit + (q.writes.toNat : ℤ) = c.shared.numWrit + p.writes.toNat)
    (hkeep : s.numRead = c.shared.numRead ∧ p.pending = false ∨ ∀ u, c.pc u ≠ .w .writing)
    (hin : p = .w .writing → s.numRead = 0 ∧ ∀ u, (c.pc u).pending = false)
    (hf : p ≠ .w .fallen) : Inv (⟨s,o,Function.update c.pc t p⟩ : Threads Tid Counters Pc) where
  owned := ho
  reads := by
    have h1 := count_update Pc.reads c.pc t p
    have h2 := h.reads
    rw [hq] at h1
    dsimp only
    omega
  writes := by
    have h1 := count_update Pc.writes c.pc t p
    have h2 := h.writes
    rw [hq] at h1
    dsimp only
    omega
  clear u hu := by
    dsimp only at hu ⊢
    have hpend : ∀ {r : Pc}, r.pending = false → (∀ v, (c.pc v).pending = false) →
        ∀ v, (Function.update c.pc t r v).pending = false := by
      intro r hr hall v
      by_cases hv : v = t
      · subst hv; rwa [Function.update_self]
      · rw [Function.update_of_ne hv]; exact hall v
    by_cases hut : u = t
    · subst hut
      rw [Function.update_self] at hu
      subst hu
      exact ⟨(hin rfl).1,hpend rfl (hin rfl).2⟩
    · rw [Function.update_of_ne hut] at hu
      rcases hkeep with ⟨hs,hp⟩ | hno
      · exact ⟨hs.trans (h.clear u hu).1,hpend hp (h.clear u hu).2⟩
      · exact (hno u hu).elim
  never u := by
    dsimp only
    by_cases hut : u = t
    · subst hut
      rwa [Function.update_self]
    · rw [Function.update_of_ne hut]
      exact h.never u

theorem call_inv (h : Inv c) {next : List Pc} (hc : code (c.pc t) = .call next) (hp : p ∈ next) :
    Inv (c.go t p) := by
  have hstep : ∀ q, c.pc t = q → p.holds = q.holds → p.reads = q.reads → p.writes = q.writes →
      p.pending = false → p ≠ .w .writing → p ≠ .w .fallen → Inv (c.go t p) :=
    fun q hq h1 h2 h3 h4 h5 h6 => h.step hq (h.owned.move (hq ▸ h1)) (by rw [h2]) (by rw [h3])
      (.inl ⟨rfl,h4⟩) (fun h => (h5 h).elim) h6
  cases hq : c.pc t with
  | idle =>
    rw [hq] at hc
    cases hc
    rcases List.mem_cons.mp hp with rfl | hp
    · exact hstep _ hq rfl rfl rfl rfl nofun nofun
    · obtain rfl := List.mem_singleton.mp hp
      exact hstep _ hq rfl rfl rfl rfl nofun nofun
  | reading =>
    rw [hq] at hc
    cases hc
    obtain rfl := List.mem_singleton.mp hp
    exact hstep _ hq rfl rfl rfl rfl nofun nofun
  | w q =>
    rw [hq] at hc
    cases q with
    | writing =>
      cases hc
      obtain rfl := List.mem_singleton.mp hp
      exact hstep _ hq rfl rfl rfl rfl nofun nofun
    | fallen => exact (h.never t hq).elim
    | _ => cases hc
  | _ => rw [hq] at hc; cases hc

theorem lock_inv (h : Inv c) (hc : code (c.pc t) = .lock p) (ho : c.owner = none) :
    Inv { c.go t p with owner := some t } := by
  have hown : ∀ {p : Pc}, p.holds = true →
      Owned Pc.holds (some t) (Function.update c.pc t p) := fun hp =>
    Owned.lock (ho ▸ h.owned) hp
  cases hq : c.pc t with
  | rLock =>
    rw [hq] at hc
    cases hc
    exact h.step hq (hown rfl) rfl rfl (.inl ⟨rfl,rfl⟩) nofun nofun
  | w q =>
    rw [hq] at hc
    cases q with
    | lock =>
      cases hc
      exact h.step hq (hown rfl) rfl rfl (.inl ⟨rfl,rfl⟩) nofun nofun
    | lockAgain =>
      cases hc
      exact h.step hq (hown rfl) rfl rfl (.inl ⟨rfl,rfl⟩) nofun nofun
    | _ => cases hc
  | _ => rw [hq] at hc; cases hc

theorem unlock_inv (h : Inv c) (hc : code (c.pc t) = .unlock p) :
    Inv { c.go t p with owner := none } := by
  have hown : ∀ {q p : Pc}, c.pc t = q → q.holds = true → p.holds = false →
      Owned Pc.holds none (Function.update c.pc t p) := fun hq hh hp =>
    h.owned.unlock (hq ▸ hh) hp
  cases hq : c.pc t with
  | rBusy =>
    rw [hq] at hc
    cases hc
    exact h.step hq (hown hq rfl rfl) rfl rfl (.inl ⟨rfl,rfl⟩) nofun nofun
  | rFree =>
    rw [hq] at hc
    cases hc
    refine h.step hq (hown hq rfl rfl) rfl rfl (.inr fun u hu => ?_) nofun nofun
    have := (h.clear u hu).2 t
    rw [hq] at this
    cases this
  | w q =>
    rw [hq] at hc
    cases q with
    | unlock =>
      cases hc
      exact h.step hq (hown hq rfl rfl) rfl rfl (.inl ⟨rfl,rfl⟩) nofun nofun
    | release =>
      cases hc
      exact h.step hq (hown hq rfl rfl) rfl rfl (.inl ⟨rfl,rfl⟩) nofun nofun
    | _ => cases hc
  | _ => rw [hq] at hc; cases hc

omit [DecidableEq Tid] in
theorem Inv.numRead_nonneg (h : Inv c) : 0 ≤ c.shared.numRead := by
  rw [h.reads]
  exact Int.natCast_nonneg _

omit [DecidableEq Tid] in
theorem Inv.numWrit_pos (h : Inv c) (ht : (c.pc t).writes = true) : c.shared.numWrit > 0 := by
  have := count_pos ht
  rw [h.writes]
  omega

/-- No writer finds the readers gone while a reader that has found no writer is on its way to
count itself. -/
def Ordered (op : Sched Tid Pc) (c : Threads Tid Counters Pc) : Prop :=
  match op with
  | .run t => c.pc t = .w .test → c.shared.numRead ≤ 0 → ∀ u, (c.pc u).pending = false
  | _ => True

theorem act_inv (h : Inv c) (hok : Ordered (.run t) c) {f : Counters → Counters}
    {next : Counters → Pc} (hc : code (c.pc t) = .act f next) :
    Inv { c.go t (next c.shared) with shared := f c.shared } := by
  have hown : ∀ {q p : Pc}, c.pc t = q → p.holds = q.holds →
      Owned Pc.holds c.owner (Function.update c.pc t p) := fun hq hp => h.owned.move (hq ▸ hp)
  have hnone : ¬ c.shared.numWrit > 0 → ∀ u, c.pc u ≠ .w .writing := fun hno u hu =>
    hno (h.numWrit_pos (t := u) (by rw [hu]; rfl))
  cases hq : c.pc t with
  | rTest | rSpin =>
    rw [hq] at hc
    cases hc
    dsimp only
    split
    · exact h.step hq (hown hq rfl) rfl rfl (.inl ⟨rfl,rfl⟩) nofun nofun
    · rename_i hno
      exact h.step hq (hown hq rfl) rfl rfl (.inr (hnone hno)) nofun nofun
  | rInc =>
    rw [hq] at hc
    cases hc
    refine h.step hq (hown hq rfl) (Int.add_zero _) rfl (.inr fun u hu => ?_) nofun nofun
    have := (h.clear u hu).2 t
    rw [hq] at this
    cases this
  | ruDec =>
    rw [hq] at hc
    cases hc
    refine h.step hq (hown hq rfl) (by simp [Pc.reads]) rfl (.inr fun u hu => ?_) nofun nofun
    have h0 := (h.clear u hu).1
    have hpos : 0 < count Pc.reads c.pc := count_pos (t := t) (by rw [hq]; rfl)
    have := h.reads
    omega
  | w q =>
    rw [hq] at hc
    cases q with
    | inc =>
      cases hc
      exact h.step hq (hown hq rfl) rfl (Int.add_zero _) (.inl ⟨rfl,rfl⟩) nofun nofun
    | test =>
      cases hc
      dsimp only
      split
      · exact h.step hq (hown hq rfl) rfl rfl (.inl ⟨rfl,rfl⟩) nofun nofun
      · rename_i hread
        have := h.numRead_nonneg
        refine h.step hq (hown hq rfl) rfl rfl (.inl ⟨rfl,rfl⟩)
          (fun _ => ⟨by dsimp only [id]; omega,hok hq (by omega)⟩) nofun
    | loopRead =>
      cases hc
      dsimp only
      split
      · exact h.step hq (hown hq rfl) rfl rfl (.inl ⟨rfl,rfl⟩) nofun nofun
      · exact h.step hq (hown hq rfl) rfl rfl (.inl ⟨rfl,rfl⟩) nofun nofun
    | loopWrit =>
      -- the writer has counted itself, so the loop goes on
      have hpos := h.numWrit_pos (t := t) (by rw [hq]; rfl)
      cases hc
      dsimp only
      rw [if_pos hpos]
      exact h.step hq (hown hq rfl) rfl rfl (.inl ⟨rfl,rfl⟩) nofun nofun
    | dec =>
      cases hc
      exact h.step hq (hown hq rfl) rfl (by simp [Pc.writes,Writer.counts]) (.inl ⟨rfl,rfl⟩)
        nofun nofun
    | _ => cases hc
  | _ => rw [hq] at hc; cases hc

theorem quiet : Quiet code := by
  intro q
  cases q with
  | w q => cases q <;> exact ⟨rfl,fun _ h => by cases h⟩
  | _ => exact ⟨rfl,fun _ h => by cases h⟩

theorem exec_inv (op : Sched Tid Pc) (h : Inv c) (hok : Ordered op c) :
    Partial (exec code op) c fun _ d => Inv d := by
  refine quiet.post (fun t p _ => ?_) fun t ho => ?_
  · exact call_post fun next hc hp => call_inv h hc hp
  · subst ho
    exact run_post (fun p hc ho => lock_inv h hc ho) (fun p hc => unlock_inv h hc)
      fun f next hc => act_inv h hok hc

/-- No writer is in with another writer or with a reader. -/
def Exclusive (c : Threads Tid Counters Pc) : Prop :=
  ∀ t u, (c.pc t).inside = true → ((c.pc u).inside = true → t = u) ∧ c.pc u ≠ .reading

/-- The interleavings in which no writer slips in between the two steps of a reader. -/
abbrev Run (Tid : Type) [Fintype Tid] [DecidableEq Tid] : Threads Tid Counters Pc → Prop :=
  Reach (exec code) Ordered fun c => c = init Tid

theorem run_inv (h : Run Tid c) : Inv c :=
  h.invariant (I := Inv) (fun _ hs => hs ▸ init_inv) fun op _ hi ho => exec_inv op hi ho

/-- Where a writer does slip in, it has the reader with it as soon as the reader goes on. -/
theorem slip_not_exclusive (h : Inv c) (ht : c.pc t = .w .test) (hread : c.shared.numRead ≤ 0)
    (hu : (c.pc u).pending = true) :
    Total (runOps (exec code) [.run t,.run u]) c fun _ d => ¬ Exclusive d := by
  have hinc : c.pc u = .rInc := by
    cases hq : c.pc u with
    | rFree =>
      -- both would hold the mutex
      have he := h.owned.eq (t := t) (u := u) (by rw [ht]; rfl) (by rw [hq]; rfl)
      rw [he,hq] at ht
      cases ht
    | rInc => rfl
    | _ => rw [hq] at hu; cases hu
  have hne : u ≠ t := by
    rintro rfl
    rw [ht] at hinc
    cases hinc
  have hnot : ¬ c.shared.numRead > 0 := by omega
  simp only [runOps,exec,post_bind,post_get,ht,code,Writer.code,if_neg hnot,post_set,go_pc,
    Function.update_of_ne hne,hinc,post_pure]
  intro hx
  refine (hx t u ?_).2 ?_
  · simp only [Function.update_of_ne hne.symm,Function.update_self]
    rfl
  · simp only [Function.update_self]

end ResumePointers.Sync.WriterPref

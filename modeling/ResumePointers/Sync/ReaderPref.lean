import ResumePointers.Sync.Rwlock

/-! The read-write lock that prefers readers (`os/rwlock-reader-pref.cpp`): a reader counts itself
with the mutex held, and a writer holds the mutex until it is done. -/
namespace ResumePointers.Sync.ReaderPref

open Threads

inductive Pc
  | idle
  | rLock
  | rInc
  | rUnlock
  | reading
  | ruLock
  | ruDec
  | ruUnlock
  | w (p : Writer)
deriving DecidableEq

/-- `ReaderLock`, `ReaderUnlock`, and what a writer does. -/
def code : Pc → Instr Counters Pc
  | .idle => .call [.rLock,.w .lock]
  | .rLock => .lock .rInc
  | .rInc => .act (fun s => { s with numRead := s.numRead + 1 }) fun _ => .rUnlock
  | .rUnlock => .unlock .reading
  | .reading => .call [.ruLock]
  | .ruLock => .lock .ruDec
  | .ruDec => .act (fun s => { s with numRead := s.numRead - 1 }) fun _ => .ruUnlock
  | .ruUnlock => .unlock .idle
  | .w p => Writer.code .idle .w p

def Pc.holds : Pc → Bool
  | .rInc | .rUnlock | .ruDec | .ruUnlock => true
  | .w p => p.holds
  | _ => false

/-- A reader past its increment and before its decrement. -/
def Pc.reads : Pc → Bool
  | .rUnlock | .reading | .ruLock | .ruDec => true
  | _ => false

/-- A writer past its increment and before its decrement. -/
def Pc.writes : Pc → Bool
  | .w p => p.counts
  | _ => false

def Pc.inside : Pc → Bool
  | .w p => p.inside
  | _ => false

variable {Tid : Type} [Fintype Tid] [DecidableEq Tid] {c : Threads Tid Counters Pc} {t u : Tid}
  {p q : Pc}

/-- `InitalizeReadWriteLock`, before any thread has made a call. -/
def init (Tid : Type) : Threads Tid Counters Pc := ⟨⟨0,0⟩,none,fun _ => .idle⟩

structure Inv (c : Threads Tid Counters Pc) : Prop where
  owned : Owned Pc.holds c.owner c.pc
  reads : c.shared.numRead = count Pc.reads c.pc
  writes : c.shared.numWrit = count Pc.writes c.pc
  clear : ∀ t, c.pc t = .w .writing → c.shared.numRead = 0
  never : ∀ t, c.pc t ≠ .w .fallen

omit [DecidableEq Tid] in
theorem init_inv : Inv (init Tid) where
  owned t := iff_of_false nofun nofun
  reads := by rw [init,count_eq_zero fun _ => rfl]; rfl
  writes := by rw [init,count_eq_zero fun _ => rfl]; rfl
  clear _ h := by cases h
  never _ := nofun

/-- A thread at `q` goes on to `p`. -/
theorem Inv.step (h : Inv c) (hq : c.pc t = q) {o : Option Tid} {s : Counters}
    (ho : Owned Pc.holds o (Function.update c.pc t p))
    (hr : s.numRead + (q.reads.toNat : ℤ) = c.shared.numRead + p.reads.toNat)
    (hw : s.numWrit + (q.writes.toNat : ℤ) = c.shared.numWrit + p.writes.toNat)
    (hkeep : s.numRead = c.shared.numRead ∨ q.holds = true)
    (hin : p = .w .writing → s.numRead = 0) (hf : p ≠ .w .fallen) :
    Inv (⟨s,o,Function.update c.pc t p⟩ : Threads Tid Counters Pc) where
  owned := ho
  reads := by
    have h1 := count_update Pc.reads c.pc t p
    have h2 := h.reads
    rw [hq] at h1
    dsimp only
    omega
  writes := by
    have h1 := count_update Pc.writes c.pc t p
    have h2 := h.writes
    rw [hq] at h1
    dsimp only
    omega
  clear u hu := by
    dsimp only at hu ⊢
    by_cases hut : u = t
    · subst hut
      rw [Function.update_self] at hu
      exact hin hu
    · rw [Function.update_of_ne hut] at hu
      rcases hkeep with hs | hh
      · rw [hs,h.clear u hu]
      · -- only the owner of the mutex changes the count, and that is the writer
        refine (hut (h.owned.eq ?_ ?_)).elim
        · rw [hu]; rfl
        · rw [hq]; exact hh
  never u := by
    dsimp only
    by_cases hut : u = t
    · subst hut
      rwa [Function.update_self]
    · rw [Function.update_of_ne hut]
      exact h.never u

theorem call_inv (h : Inv c) {next : List Pc} (hc : code (c.pc t) = .call next) (hp : p ∈ next) :
    Inv (c.go t p) := by
  have hstep : ∀ q, c.pc t = q → p.holds = q.holds → p.reads = q.reads → p.writes = q.writes →
      p ≠ .w .writing → p ≠ .w .fallen → Inv (c.go t p) := fun q hq h1 h2 h3 h4 h5 =>
    h.step hq (h.owned.move (hq ▸ h1)) (by rw [h2]) (by rw [h3]) (.inl rfl) (fun h => (h4 h).elim) h5
  cases hq : c.pc t with
  | idle =>
    rw [hq] at hc
    cases hc
    rcases List.mem_cons.mp hp with rfl | hp
    · exact hstep _ hq rfl rfl rfl nofun nofun
    · obtain rfl := List.mem_singleton.mp hp
      exact hstep _ hq rfl rfl rfl nofun nofun
  | reading =>
    rw [hq] at hc
    cases hc
    obtain rfl := List.mem_singleton.mp hp
    exact hstep _ hq rfl rfl rfl nofun nofun
  | w q =>
    rw [hq] at hc
    cases q with
    | writing =>
      cases hc
      obtain rfl := List.mem_singleton.mp hp
      exact hstep _ hq rfl rfl rfl nofun nofun
    | fallen => exact (h.never t hq).elim
    | _ => cases hc
  | _ => rw [hq] at hc; cases hc

theorem lock_inv (h : Inv c) (hc : code (c.pc t) = .lock p) (ho : c.owner = none) :
    Inv { c.go t p with owner := some t } := by
  have hown : ∀ {p : Pc}, p.holds = true →
      Owned Pc.holds (some t) (Function.update c.pc t p) := fun hp =>
    Owned.lock (ho ▸ h.owned) hp
  cases hq : c.pc t with
  | rLock =>
    rw [hq] at hc
    cases hc
    exact h.step hq (hown rfl) rfl rfl (.inl rfl) nofun nofun
  | ruLock =>
    rw [hq] at hc
    cases hc
    exact h.step hq (hown rfl) rfl rfl (.inl rfl) nofun nofun
  | w q =>
    rw [hq] at hc
    cases q with
    | lock =>
      cases hc
      exact h.step hq (hown rfl) rfl rfl (.inl rfl) nofun nofun
    | lockAgain =>
      cases hc
      exact h.step hq (hown rfl) rfl rfl (.inl rfl) nofun nofun
    | _ => cases hc
  | _ => rw [hq] at hc; cases hc

theorem unlock_inv (h : Inv c) (hc : code (c.pc t) = .unlock p) :
    Inv { c.go t p with owner := none } := by
  have hown : ∀ {q p : Pc}, c.pc t = q → q.holds = true → p.holds = false →
      Owned Pc.holds none (Function.update c.pc t p) := fun hq hh hp =>
    h.owned.unlock (hq ▸ hh) hp
  cases hq : c.pc t with
  | rUnlock =>
    rw [hq] at hc
    cases hc
    exact h.step hq (hown hq rfl rfl) rfl rfl (.inl rfl) nofun nofun
  | ruUnlock =>
    rw [hq] at hc
    cases hc
    exact h.step hq (hown hq rfl rfl) rfl rfl (.inl rfl) nofun nofun
  | w q =>
    rw [hq] at hc
    cases q with
    | unlock =>
      cases hc
      exact h.step hq (hown hq rfl rfl) rfl rfl (.inl rfl) nofun nofun
    | release =>
      cases hc
      exact h.step hq (hown hq rfl rfl) rfl rfl (.inl rfl) nofun nofun
    | _ => cases hc
  | _ => rw [hq] at hc; cases hc

omit [DecidableEq Tid] in
theorem Inv.numRead_nonneg (h : Inv c) : 0 ≤ c.shared.numRead := by
  rw [h.reads]
  exact Int.natCast_nonneg _

theorem act_inv (h : Inv c) {f : Counters → Counters} {next : Counters → Pc}
    (hc : code (c.pc t) = .act f next) :
    Inv { c.go t (next c.shared) with shared := f c.shared } := by
  have hown : ∀ {q p : Pc}, c.pc t = q → p.holds = q.holds →
      Owned Pc.holds c.owner (Function.update c.pc t p) := fun hq hp => h.owned.move (hq ▸ hp)
  cases hq : c.pc t with
  | rInc =>
    rw [hq] at hc
    cases hc
    exact h.step hq (hown hq rfl) (Int.add_zero _) rfl (.inr rfl) nofun nofun
  | ruDec =>
    rw [hq] at hc
    cases hc
    exact h.step hq (hown hq rfl) (by simp [Pc.reads]) rfl (.inr rfl) nofun nofun
  | w q =>
    rw [hq] at hc
    cases q with
    | inc =>
      cases hc
      exact h.step hq (hown hq rfl) rfl (Int.add_zero _) (.inl rfl) nofun nofun
    | test =>
      cases hc
      dsimp only
      split
      · exact h.step hq (hown hq rfl) rfl rfl (.inl rfl) nofun nofun
      · rename_i hread
        have := h.numRead_nonneg
        exact h.step hq (hown hq rfl) rfl rfl (.inl rfl) (fun _ => by dsimp only [id]; omega) nofun
    | loopRead =>
      cases hc
      dsimp only
      split
      · exact h.step hq (hown hq rfl) rfl rfl (.inl rfl) nofun nofun
      · exact h.step hq (hown hq rfl) rfl rfl (.inl rfl) nofun nofun
    | loopWrit =>
      -- the writer has counted itself, so the loop goes on
      have hpos : c.shared.numWrit > 0 := by
        have : 0 < count Pc.writes c.pc := count_pos (t := t) (by rw [hq]; rfl)
        rw [h.writes]
        omega
      cases hc
      dsimp only
      rw [if_pos hpos]
      exact h.step hq (hown hq rfl) rfl rfl (.inl rfl) nofun nofun
    | dec =>
      cases hc
      exact h.step hq (hown hq rfl) rfl (by simp [Pc.writes,Writer.counts]) (.inl rfl) nofun nofun
    | _ => cases hc
  | _ => rw [hq] at hc; cases hc

theorem quiet : Quiet code := by
  intro q
  cases q with
  | w q => cases q <;> exact ⟨rfl,fun _ h => by cases h⟩
  | _ => exact ⟨rfl,fun _ h => by cases h⟩

theorem exec_inv (op : Sched Tid Pc) (h : Inv c) : Partial (exec code op) c fun _ d => Inv d := by
  refine quiet.post (fun t p _ => ?_) fun t _ => ?_
  · exact call_post fun next hc hp => call_inv h hc hp
  · exact run_post (fun p hc ho => lock_inv h hc ho) (fun p hc => unlock_inv h hc)
      fun f next hc => act_inv h hc

/-- The runs of the threads, in every interleaving. -/
abbrev Run (Tid : Type) [Fintype Tid] [DecidableEq Tid] : Threads Tid Counters Pc → Prop :=
  Reach (exec code) (fun _ _ => True) fun c => c = init Tid

theorem run_inv (h : Run Tid c) : Inv c :=
  h.invariant (I := Inv) (fun _ hs => hs ▸ init_inv) fun op _ hi _ => exec_inv op hi

end ResumePointers.Sync.ReaderPref

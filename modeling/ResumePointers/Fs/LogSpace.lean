import ResumePointers.Fs.Log
import ResumePointers.Lib.Threads
import Mathlib.Algebra.Order.BigOperators.Group.Finset
import Mathlib.Algebra.Group.Action.Defs
import Mathlib.Tactic.Ring

/-! `begin_op` reserves room in the log for every system call that it lets in: when `log_write` can
find the log full. -/
namespace ResumePointers.Fs

open Threads Finset

/-- The blocks of its reservation that a process has not written yet. -/
def reserved : Option (Finset ℕ) → ℕ
  | none => 0
  | some ws => MAXOPBLOCKS - ws.card

@[simp] theorem reserved_none : reserved none = 0 := rfl
@[simp] theorem reserved_some (ws : Finset ℕ) : reserved (some ws) = MAXOPBLOCKS - ws.card := rfl

theorem sum_reserved_update (ops : Proc → Option (Finset ℕ)) (p : Proc) (x : Option (Finset ℕ)) :
    ∑ q, reserved (Function.update ops p x q) + reserved (ops p) =
      ∑ q, reserved (ops q) + reserved x := by
  have hsame : ∑ q ∈ univ.erase p, reserved (Function.update ops p x q) =
      ∑ q ∈ univ.erase p, reserved (ops q) :=
    sum_congr rfl fun q hq => by rw [Function.update_of_ne (ne_of_mem_erase hq)]
  rw [← sum_erase_add _ _ (mem_univ p),← sum_erase_add univ _ (mem_univ p),hsame,
    Function.update_self]
  omega

theorem sum_reserved_le (ops : Proc → Option (Finset ℕ)) :
    ∑ q, reserved (ops q) ≤ count Option.isSome ops * MAXOPBLOCKS := by
  rw [count,← Nat.nsmul_eq_mul,← sum_const,sum_filter]
  refine sum_le_sum fun q _ => ?_
  cases ops q with
  | none => simp
  | some ws => simp

/-- What is reserved fits behind what is logged. -/
structure Space (s : State) : Prop where
  outstanding : s.outstanding = count Option.isSome s.ops
  logged : ∀ p ws, s.ops p = some ws → ∀ b ∈ ws, b ∈ s.lh
  quiet : s.phase ≠ .idle → ∀ p, s.ops p = none
  committing : s.phase = .idle → s.committing = false
  room : s.phase = .idle → s.lh.length + ∑ p, reserved (s.ops p) ≤ LOGSIZE

namespace Space

variable {sb : Superblock} {s t : State} {p : Proc}

theorem idle (h : Space s) (hp : s.ops p ≠ none) : s.phase = .idle :=
  by_contra fun hn => hp (h.quiet hn p)

theorem begin_op (h : Space s) (hup : s.up) (hp : s.ops p = none) :
    Partial (begin_op p) s fun _ t => Space t := by
  refine (begin_op_spec p s).mono ?_ fun _ _ _ => trivial
  rintro _ _ ⟨hc,hroom,rfl⟩
  have hidle : s.phase = .idle := hup.resolve_right (by simp [hc])
  have hcount := count_update Option.isSome s.ops p (some ∅)
  have hsum := sum_reserved_update s.ops p (some ∅)
  have hle := sum_reserved_le s.ops
  have hout := h.outstanding
  rw [hp] at hcount hsum
  simp only [reserved_none,reserved_some,card_empty,Option.isSome_none,Option.isSome_some,Bool.toNat_false,
    Bool.toNat_true] at hcount hsum
  exact {
    outstanding := by dsimp only; omega
    logged := by
      intro q ws hq
      dsimp only at hq
      rw [Function.update_apply] at hq
      split at hq
      · cases hq
        simp
      · exact h.logged q ws hq
    quiet := fun hn => (hn hidle).elim
    committing := fun _ => hc
    room := fun _ => by
      dsimp only
      have hout' : (s.outstanding + 1) * MAXOPBLOCKS =
          ((count Option.isSome s.ops * MAXOPBLOCKS + MAXOPBLOCKS : ℕ) : ℤ) := by
        rw [hout]
        push_cast
        ring
      rw [hout'] at hroom
      omega }

theorem log_write {b : ℕ} {data : Sector} (h : Space s) {ws : Finset ℕ} (hp : s.ops p = some ws)
    (hws : ws.card < MAXOPBLOCKS) : Partial (log_write sb p b data) s fun _ t => Space t := by
  refine (log_write_spec sb p b data s).mono ?_ fun _ _ _ => trivial
  rintro _ _ ⟨-,-,-,rfl⟩
  have hidle := h.idle (by simp [hp] : s.ops p ≠ none)
  have hcount := count_update Option.isSome s.ops p (some (insert b ws))
  have hsum := sum_reserved_update s.ops p (some (insert b ws))
  have hroom := h.room hidle
  rw [hp] at hcount hsum ⊢
  simp only [reserved_some,Option.isSome_some] at hcount hsum
  have hmem : b ∈ ws → b ∈ s.lh := h.logged p ws hp b
  exact {
    outstanding := by dsimp only [Option.map_some]; rw [h.outstanding]; omega
    logged := by
      intro q ws' hq b' hb'
      have hold : b' ∈ s.lh ∨ b' = b := by
        dsimp only [Option.map_some] at hq
        rw [Function.update_apply] at hq
        split at hq
        · cases hq
          exact (mem_insert.mp hb').symm.imp (h.logged p ws hp b') id
        · exact .inl (h.logged q ws' hq b' hb')
      dsimp only
      split
      · rename_i hb
        exact hold.elim id fun he => he ▸ hb
      · simpa using hold
    quiet := fun hn => (hn hidle).elim
    committing := fun _ => h.committing hidle
    room := fun _ => by
      dsimp only [Option.map_some]
      split
      · have := card_le_card (subset_insert b ws)
        omega
      · rename_i hb
        have := card_insert_of_notMem fun hbw => hb (hmem hbw)
        rw [List.length_append,List.length_singleton]
        omega }

theorem end_op (h : Space s) (hp : s.ops p ≠ none) :
    Partial (end_op p) s fun _ t => Space t := by
  refine (end_op_spec p s).mono ?_ fun _ _ _ => trivial
  have hidle := h.idle hp
  have hcount := count_update Option.isSome s.ops p none
  have hsum := sum_reserved_update s.ops p none
  have hroom := h.room hidle
  have hout := h.outstanding
  simp only [Option.isSome_iff_ne_none.mpr hp,Option.isSome_none,Bool.toNat_false,
    Bool.toNat_true,reserved_none] at hcount hsum
  have hlog : ∀ q ws, Function.update s.ops p none q = some ws → ∀ b ∈ ws, b ∈ s.lh := by
    intro q ws hq
    rw [Function.update_apply] at hq
    split at hq
    · cases hq
    · exact h.logged q ws hq
  rintro _ _ ⟨hc,⟨ho,rfl⟩ | ⟨ho,rfl⟩⟩
  · refine ⟨by dsimp only; omega,hlog,fun _ q => ?_,nofun,nofun⟩
    have hz := count_zero (by omega : count Option.isSome (Function.update s.ops p none) = 0) q
    simpa using hz
  · exact ⟨by dsimp only; omega,hlog,fun hn => (hn hidle).elim,fun _ => hc,
      fun _ => by dsimp only; omega⟩

/-- Without a system call in progress nothing is reserved. -/
theorem of_quiet (hout : s.outstanding = 0) (hops : ∀ p, s.ops p = none)
    (hidle : s.phase = .idle → s.committing = false ∧ s.lh = []) : Space s where
  outstanding := by
    rw [hout,count_eq_zero fun p => by rw [hops p]; rfl]
    rfl
  logged p ws hp := by simp [hops p] at hp
  quiet _ := hops
  committing hi := (hidle hi).1
  room hi := by simp [(hidle hi).2,hops]

theorem outstanding_of_quiet (h : Space s) (hops : ∀ p, s.ops p = none) : s.outstanding = 0 := by
  rw [h.outstanding,count_eq_zero fun p => by rw [hops p]; rfl]
  rfl

theorem commit (h : Space s) : Partial (commit sb) s fun _ t => Space t := by
  refine (commit_spec sb s).mono ?_ fun _ _ _ => trivial
  have hquiet : ∀ t : State, t.outstanding = s.outstanding → t.ops = s.ops → s.phase ≠ .idle →
      (t.phase = .idle → t.committing = false ∧ t.lh = []) → Space t := by
    intro t ho hops hn ht
    have hq := h.quiet hn
    exact of_quiet (ho.trans (h.outstanding_of_quiet hq)) (fun p => by rw [hops,hq]) ht
  rintro _ _ (⟨tail,hph,hl,rfl⟩ | ⟨tail,b,hph,-,rfl⟩ | ⟨tail,hph,-,-,rfl⟩ | ⟨tail,b,hph,-,rfl⟩ |
    ⟨tail,hph,-,rfl⟩)
  · exact hquiet _ rfl rfl (by simp [hph]) fun _ => ⟨rfl,hl⟩
  · exact hquiet _ rfl rfl (by simp [hph]) nofun
  · exact hquiet _ rfl rfl (by simp [hph]) nofun
  · exact hquiet _ rfl rfl (by simp [hph]) nofun
  · exact hquiet _ rfl rfl (by simp [hph]) fun _ => ⟨rfl,rfl⟩

theorem crash : Partial crash s fun _ t => Space t :=
  of_quiet rfl (fun _ => rfl) nofun

theorem initlog (h : Space s) : Partial (initlog sb) s fun _ t => Space t := by
  refine (initlog_spec sb s).mono ?_ fun _ _ _ => trivial
  rintro _ _ ⟨hph,rfl⟩
  have hq := h.quiet (by simp [hph])
  exact of_quiet (h.outstanding_of_quiet hq) hq nofun

theorem step {op : Op} (h : Space s) (hu : Used sb op s) :
    Partial (step sb op) s fun _ t => Space t := by
  cases op with
  | begin_op p => exact h.begin_op hu.1 hu.2
  | log_write p b data =>
    obtain ⟨⟨ws,hp,hws⟩,-⟩ := hu
    exact h.log_write hp hws
  | end_op p => exact h.end_op hu
  | commit => exact h.commit
  | crash => exact crash
  | initlog => exact h.initlog

end Space

theorem Formatted.space {sb : Superblock} {s : State} (h : Formatted sb s) : Space s :=
  Space.of_quiet h.outstanding (fun p => by rw [h.ops]) fun hi => by simp [h.phase] at hi

theorem Runs.space {sb : Superblock} {s t : State} {ops : List Op} (h : Formatted sb s)
    (hr : Runs sb s ops t) : Space t :=
  Trace.invariant (fun _ _ _ hs hc => (hc.of_post hs.step).elim fun _ ht => ht) hr h.space

/-- Three system calls have written `k` blocks, ten each and one after the other. -/
structure Filled (sb : Superblock) (k : ℕ) (s : State) : Prop where
  phase : s.phase = .idle
  committing : s.committing = false
  outstanding : s.outstanding = 3
  lh : s.lh = (List.range k).map (sb.logstart + sb.nlog + ·)
  ops : ∀ q : Proc, q.val < 3 → ∃ ws, s.ops q = some ws ∧ ws.card ≤ k - MAXOPBLOCKS * q

/-- The system call that writes the next block. -/
def writer (k : ℕ) (hk : k < LOGSIZE) : Proc :=
  ⟨k / MAXOPBLOCKS,by simp only [LOGSIZE,MAXOPBLOCKS,NPROC] at *; omega⟩

theorem writer_lt (k : ℕ) (hk : k < LOGSIZE) : (writer k hk).val < 3 := by
  have hk' : k < 30 := hk
  show k / 10 < 3
  omega

variable {sb : Superblock} {k : ℕ} {s₀ s : State} {ops : List Op}

theorem Filled.writer (h : Filled sb k s) (hk : k < LOGSIZE) :
    ∃ ws, s.ops (writer k hk) = some ws ∧ ws.card < MAXOPBLOCKS := by
  obtain ⟨ws,hws,hcard⟩ := h.ops (Fs.writer k hk) (writer_lt k hk)
  refine ⟨ws,hws,?_⟩
  simp only [Fs.writer,MAXOPBLOCKS] at hcard ⊢
  omega

theorem Filled.succ (h : Filled sb k s) (hr : Runs sb s₀ ops s) (hk : k < LOGSIZE)
    (hn : k + 1 < sb.nlog) : ∃ ops' t, Runs sb s₀ ops' t ∧ Filled sb (k + 1) t := by
  obtain ⟨ws,hws,hcard⟩ := h.writer hk
  have hlen : s.lh.length = k := by simp [h.lh]
  cases hrun : log_write sb (Fs.writer k hk) (sb.logstart + sb.nlog + k) (fun _ => 0) s with
  | error e t =>
    have herr := (log_write_spec _ _ _ _ _).of_error hrun
    have := h.outstanding
    omega
  | ok r t =>
    have hused : Used sb (.log_write (Fs.writer k hk) (sb.logstart + sb.nlog + k) fun _ => 0) s :=
      ⟨⟨ws,hws,hcard⟩,.inr (by omega)⟩
    refine ⟨_,t,hr.snoc ⟨hused,r,hrun⟩,?_⟩
    obtain ⟨-,-,-,rfl⟩ := (log_write_spec _ _ _ _ _).of_ok hrun
    refine ⟨h.phase,h.committing,h.outstanding,?_,fun q hq => ?_⟩
    · have hnew : sb.logstart + sb.nlog + k ∉ s.lh := by simp [h.lh]
      dsimp only
      rw [if_neg hnew,h.lh,List.range_succ,List.map_append]
      rfl
    · obtain ⟨ws',hws',hcard'⟩ := h.ops q hq
      dsimp only
      rw [Function.update_apply]
      split
      · rename_i he
        subst he
        refine ⟨insert (sb.logstart + sb.nlog + k) ws',by rw [hws']; rfl,?_⟩
        have := card_insert_le (sb.logstart + sb.nlog + k) ws'
        simp only [Fs.writer,MAXOPBLOCKS] at hcard' ⊢
        omega
      · exact ⟨ws',hws',hcard'.trans (by omega)⟩

end ResumePointers.Fs

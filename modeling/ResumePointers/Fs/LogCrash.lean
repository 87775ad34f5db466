import ResumePointers.Fs.LogSpace

/-! The log makes system calls atomic with respect to crashes: the disk with its log behaves as an
atomic store, whatever the interleaving and wherever the crashes fall, during recovery too. -/
namespace ResumePointers.Fs

open AtomicStore

abbrev Store := AtomicStore ℕ Sector Proc

/-- What the store sees of an operation. -/
def Op.seen : Op → Option (Event ℕ Sector Proc)
  | .begin_op p => some (.start p)
  | .log_write p b data => some (.write p b data)
  | .end_op p => some (.finish p)
  | .crash => some .crash
  | .commit | .initlog => none

@[simp] theorem read_head_write_head (lh : List ℕ) (hb : Sector) :
    read_head (write_head lh hb) = lh := by
  refine List.ext_getElem (by simp [read_head,write_head]) fun i h₁ h₂ => ?_
  simp [read_head,write_head,List.getElem?_eq_getElem h₂]

theorem Home.ne_head {sb : Superblock} {b : ℕ} (h : Home sb b) (hn : 0 < sb.nlog) :
    b ≠ sb.logstart := by
  unfold Home at h
  omega

theorem Home.ne_copy {sb : Superblock} {b i : ℕ} (h : Home sb b) (hi : i + 1 < sb.nlog) :
    b ≠ sb.logstart + i + 1 := by
  unfold Home at h
  omega

/-- What recovery makes of the disk are the contents `v`. -/
structure Recoverable (sb : Superblock) (disk v : ℕ → Sector) : Prop where
  home : ∀ b ∈ read_head (disk sb.logstart), Home sb b
  fits : (read_head (disk sb.logstart)).length < sb.nlog
  copies : ∀ i b, (read_head (disk sb.logstart))[i]? = some b → disk (sb.logstart + i + 1) = v b
  rest : ∀ b, Home sb b → b ∉ read_head (disk sb.logstart) → disk b = v b

/-- A home block may hold anything that recovery overwrites, and the log anything behind the
header. -/
theorem Recoverable.congr {sb : Superblock} {disk disk' v : ℕ → Sector} (h : Recoverable sb disk v)
    (hhead : disk' sb.logstart = disk sb.logstart)
    (hcopies : ∀ i b, (read_head (disk sb.logstart))[i]? = some b →
      disk' (sb.logstart + i + 1) = disk (sb.logstart + i + 1))
    (hrest : ∀ b, Home sb b → b ∉ read_head (disk sb.logstart) → disk' b = disk b) :
    Recoverable sb disk' v where
  home := hhead ▸ h.home
  fits := hhead ▸ h.fits
  copies i b hb := by rw [hhead] at hb; rw [hcopies i b hb,h.copies i b hb]
  rest b hb hn := by rw [hhead] at hn; rw [hrest b hb hn,h.rest b hb hn]

/-- A block of the log behind the header may be written while the log is empty. -/
theorem Recoverable.write_log {sb : Superblock} {disk v : ℕ → Sector} {i : ℕ} {data : Sector}
    (h : Recoverable sb disk v) (hempty : read_head (disk sb.logstart) = []) (hi : i + 1 < sb.nlog) :
    Recoverable sb (Function.update disk (sb.logstart + i + 1) data) v := by
  refine h.congr (Function.update_of_ne (by omega) _ _) (fun j b hb => ?_) fun b hb _ => ?_
  · simp [hempty] at hb
  · exact Function.update_of_ne (hb.ne_copy hi) _ _

/-- The new header is the point at which the copies in the log count. -/
theorem Recoverable.write_head {sb : Superblock} {disk v v' : ℕ → Sector} {lh : List ℕ} {hb : Sector}
    (h : Recoverable sb disk v) (hempty : read_head (disk sb.logstart) = [])
    (hhome : ∀ b ∈ lh, Home sb b) (hfits : lh.length < sb.nlog)
    (hcopies : ∀ i b, lh[i]? = some b → disk (sb.logstart + i + 1) = v' b)
    (hrest : ∀ b, Home sb b → b ∉ lh → v b = v' b) :
    Recoverable sb (Function.update disk sb.logstart (write_head lh hb)) v' := by
  have hread : read_head (Function.update disk sb.logstart (Fs.write_head lh hb) sb.logstart) = lh := by
    rw [Function.update_self,read_head_write_head]
  refine ⟨by rwa [hread],by rwa [hread],fun i b hi => ?_,fun b hb' hn => ?_⟩
  · rw [hread] at hi
    rw [Function.update_of_ne (by omega),hcopies i b hi]
  · rw [hread] at hn
    rw [Function.update_of_ne (hb'.ne_head (Nat.zero_lt_of_lt hfits)),h.rest b hb' (by simp [hempty]),
      hrest b hb' hn]

/-- A block with a copy in the log may be written. -/
theorem Recoverable.install {sb : Superblock} {disk v : ℕ → Sector} {b : ℕ} {data : Sector}
    (h : Recoverable sb disk v) (hb : b ∈ read_head (disk sb.logstart)) :
    Recoverable sb (Function.update disk b data) v := by
  have hhome := h.home b hb
  refine h.congr (Function.update_of_ne (hhome.ne_head (Nat.zero_lt_of_lt h.fits)).symm _ _)
    (fun i c hc => ?_) fun c _ hn => ?_
  · have hi := (List.getElem?_eq_some_iff.mp hc).1
    exact Function.update_of_ne (hhome.ne_copy (by have := h.fits; omega : i + 1 < sb.nlog)).symm _ _
  · exact Function.update_of_ne (ne_of_mem_of_not_mem hb hn).symm _ _

/-- Once every block is in its place the log may be emptied. -/
theorem Recoverable.clear {sb : Superblock} {disk v : ℕ → Sector} {hb : Sector}
    (h : Recoverable sb disk v) (hinst : ∀ b ∈ read_head (disk sb.logstart), disk b = v b) :
    Recoverable sb (Function.update disk sb.logstart (Fs.write_head [] hb)) v := by
  have hpos := Nat.zero_lt_of_lt h.fits
  refine ⟨by simp,by simpa using hpos,fun i b hi => by simp at hi,fun b hb' _ => ?_⟩
  rw [Function.update_of_ne (hb'.ne_head hpos)]
  by_cases hmem : b ∈ read_head (disk sb.logstart)
  · exact hinst b hmem
  · exact h.rest b hb' hmem

/-- What is special about each phase of a commit or a recovery. -/
def Progress (sb : Superblock) (s : State) (t : Store) : Prop :=
  match s.phase with
  | .off => s.committing = false ∧ s.lh = [] ∧ ∀ b, Home sb b → t.live b = t.durable b
  | .idle => read_head (s.disk sb.logstart) = [] ∧ (t.active = ∅ → s.lh = [])
  | .write_log tail => read_head (s.disk sb.logstart) = [] ∧ s.committing = true ∧
      ∀ i b, i < tail → s.lh[i]? = some b → s.disk (sb.logstart + i + 1) = s.bread b
  | .install_trans tail => read_head (s.disk sb.logstart) = s.lh ∧
      (∀ b, Home sb b → t.live b = t.durable b) ∧
      (∀ i b, i < tail → s.lh[i]? = some b → s.disk b = t.durable b) ∧
      ∀ b, s.dirty b ≠ none → b ∈ s.lh.drop tail

/-- The machine is in a state of the atomic store. -/
structure Refines (sb : Superblock) (s : State) (t : Store) : Prop where
  space : Space s
  active : ∀ p, p ∈ t.active ↔ s.ops p ≠ none
  recoverable : Recoverable sb s.disk t.durable
  home : ∀ b ∈ s.lh, Home sb b
  fits : s.lh.length < sb.nlog
  dirty : ∀ b, s.dirty b ≠ none → b ∈ s.lh
  reads : s.up → ∀ b, Home sb b → s.bread b = t.live b
  progress : Progress sb s t

namespace Refines

variable {sb : Superblock} {s s' : State} {t : Store} {p : Proc} {b : ℕ} {data : Sector} {tail : ℕ}

theorem begin_op (h : Refines sb s t) (hu : Used sb (.begin_op p) s)
    (hs : begin_op p s = .ok () s') : ∃ t', Step (.start p) t t' ∧ Refines sb s' t' := by
  have hspace := (h.space.step hu).of_ok hs
  obtain ⟨hc,-,rfl⟩ := (begin_op_spec p s).of_ok hs
  have hidle : s.phase = .idle := hu.1.resolve_right (by simp [hc])
  refine ⟨_,.start fun hp => (h.active p).mp hp hu.2,{
    space := hspace
    active := fun q => ?_
    recoverable := h.recoverable
    home := h.home
    fits := h.fits
    dirty := h.dirty
    reads := h.reads
    progress := ?_ }⟩
  · dsimp only
    rw [Set.mem_insert_iff,Function.update_apply]
    split
    · simp [*]
    · rw [h.active q]
      simp [*]
  · have hp := h.progress
    simp only [Progress,hidle] at hp ⊢
    exact ⟨hp.1,fun he => absurd (he ▸ Set.mem_insert p _ : p ∈ (∅ : Set Proc)) (by simp)⟩

theorem log_write (h : Refines sb s t) (hu : Used sb (.log_write p b data) s)
    (hs : log_write sb p b data s = .ok () s') :
    ∃ t', Step (.write p b data) t t' ∧ Refines sb s' t' := by
  have hspace := (h.space.step hu).of_ok hs
  obtain ⟨-,hn,-,rfl⟩ := (log_write_spec sb p b data s).of_ok hs
  obtain ⟨⟨ws,hp,-⟩,hb⟩ := hu
  have hidle := h.space.idle (by simp [hp] : s.ops p ≠ none)
  have hact : p ∈ t.active := (h.active p).mpr (by simp [hp])
  have hmem : ∀ c ∈ (if b ∈ s.lh then s.lh else s.lh ++ [b]), c ∈ s.lh ∨ c = b := by
    intro c hc
    split at hc
    · exact .inl hc
    · simpa using hc
  refine ⟨_,.write hact b data,{
    space := hspace
    active := fun q => ?_
    recoverable := h.recoverable
    home := fun c hc => (hmem c hc).elim (h.home c) fun he => he ▸ hb
    fits := ?_
    dirty := fun c hc => ?_
    reads := fun _ c hc => ?_
    progress := ?_ }⟩
  · dsimp only
    rw [h.active q,Function.update_apply]
    split
    · simp [*]
    · rfl
  · dsimp only
    split
    · exact h.fits
    · simpa using hn
  · have hold : c ∈ s.lh ∨ c = b := by
      by_cases he : c = b
      · exact .inr he
      · exact .inl (h.dirty c (by simpa [Function.update_of_ne he] using hc))
    dsimp only
    split
    · rename_i hbm
      exact hold.elim id fun he => he ▸ hbm
    · simpa using hold
  · have hr := h.reads (.inl hidle) c hc
    simp only [State.bread,Function.update_apply] at hr ⊢
    split
    · rfl
    · exact hr
  · have hp := h.progress
    simp only [Progress,hidle] at hp ⊢
    exact ⟨hp.1,fun he => by simp [he] at hact⟩

theorem end_op (h : Refines sb s t) (hu : Used sb (.end_op p) s) (hs : end_op p s = .ok () s') :
    ∃ t', Step (.finish p) t t' ∧ Refines sb s' t' := by
  have hspace := (h.space.step hu).of_ok hs
  have hact : p ∈ t.active := (h.active p).mpr hu
  have hidle := h.space.idle hu
  have hp := h.progress
  simp only [Progress,hidle] at hp
  have hactive : ∀ q, q ∈ t.active \ {p} ↔ Function.update s.ops p none q ≠ none := by
    intro q
    rw [Set.mem_sdiff,Set.mem_singleton_iff,h.active q,Function.update_apply]
    split <;> simp [*]
  obtain ⟨-,⟨-,rfl⟩ | ⟨ho,rfl⟩⟩ := (end_op_spec p s).of_ok hs
  · refine ⟨_,.finish hact,{
      space := hspace
      active := hactive
      recoverable := h.recoverable
      home := h.home
      fits := h.fits
      dirty := h.dirty
      reads := fun _ => h.reads (.inl hidle)
      progress := ⟨hp.1,rfl,fun i c hi => absurd hi (Nat.not_lt_zero i)⟩ }⟩
  · refine ⟨_,.finish hact,{
      space := hspace
      active := hactive
      recoverable := h.recoverable
      home := h.home
      fits := h.fits
      dirty := h.dirty
      reads := h.reads
      progress := ?_ }⟩
    simp only [Progress,hidle]
    refine ⟨hp.1,fun he => absurd hspace.outstanding ?_⟩
    -- another system call is still counted
    have hz : ∀ q, Function.update s.ops p none q = none := by
      intro q
      by_contra hq
      exact absurd (he ▸ (hactive q).mpr hq : q ∈ (∅ : Set Proc)) (by simp)
    have := hspace.outstanding_of_quiet hz
    dsimp only at this
    omega

theorem crash (h : Refines sb s t) (hs : crash s = .ok () s') :
    ∃ t', Step .crash t t' ∧ Refines sb s' t' := by
  cases hs
  exact ⟨_,.crash t,{
    space := Space.of_quiet rfl (fun _ => rfl) nofun
    active := fun p => by simp
    recoverable := h.recoverable
    home := by simp
    fits := (Nat.zero_le _).trans_lt h.fits
    dirty := by simp
    reads := fun hup => by simp [State.up] at hup
    progress := ⟨rfl,rfl,fun _ _ => rfl⟩ }⟩

theorem initlog (h : Refines sb s t) (hs : initlog sb s = .ok () s') : Refines sb s' t := by
  have hspace := (h.space.step (show Used sb .initlog s from trivial)).of_ok hs
  obtain ⟨hoff,rfl⟩ := (initlog_spec sb s).of_ok hs
  have hp := h.progress
  simp only [Progress,hoff] at hp
  have hclean : ∀ c, s.dirty c = none := by
    intro c
    by_contra hc
    have := h.dirty c hc
    simp [hp.2.1] at this
  have hread : s.bread sb.logstart = s.disk sb.logstart := by simp [State.bread,hclean]
  rw [hread] at hspace ⊢
  exact {
    space := hspace
    active := h.active
    recoverable := h.recoverable
    home := h.recoverable.home
    fits := h.recoverable.fits
    dirty := fun c hc => (hc (hclean c)).elim
    reads := fun hup => by simp [State.up,hp.1] at hup
    progress := ⟨rfl,hp.2.2,fun i c hi => absurd hi (Nat.not_lt_zero i),
      fun c hc => (hc (hclean c)).elim⟩ }

/-- Nobody is active while a commit or a recovery goes on. -/
theorem quiet (h : Refines sb s t) (hn : s.phase ≠ .idle) : t.active = ∅ := by
  ext p
  simp [h.active p,h.space.quiet hn p]

theorem bread_of_clean (h : Refines sb s t) (hb : b ∉ s.lh) : s.bread b = s.disk b := by
  have : s.dirty b = none := by
    by_contra hd
    exact hb (h.dirty b hd)
  simp [State.bread,this]

/-- A commit with an empty log. -/
theorem commit_empty (h : Refines sb s t) (hph : s.phase = .write_log tail) (hl : s.lh = [])
    (hspace : Space { s with committing := false, phase := .idle }) :
    Refines sb { s with committing := false, phase := .idle } t := by
  have hp := h.progress
  simp only [Progress,hph] at hp
  exact { h with
    space := hspace
    reads := fun _ => h.reads (.inr hp.2.1)
    progress := ⟨hp.1,fun _ => hl⟩ }

/-- A block is copied to the log. -/
theorem commit_copy (h : Refines sb s t) (hph : s.phase = .write_log tail)
    (hb : s.lh[tail]? = some b) {s' : State} (hspace : Space s') (hs' : s' = { s with
      disk := Function.update s.disk (sb.logstart + tail + 1) (s.bread b)
      phase := .write_log (tail + 1) }) : Refines sb s' t := by
  subst hs'
  have hp := h.progress
  simp only [Progress,hph] at hp
  obtain ⟨hempty,hc,hcopies⟩ := hp
  have htail : tail < s.lh.length := (List.getElem?_eq_some_iff.mp hb).1
  have hfits : tail + 1 < sb.nlog := by have := h.fits; omega
  have hread : ∀ c, Home sb c → State.bread { s with
      disk := Function.update s.disk (sb.logstart + tail + 1) (s.bread b)
      phase := .write_log (tail + 1) } c = s.bread c := by
    intro c hc
    show (s.dirty c).getD (Function.update s.disk _ _ c) = _
    rw [Function.update_of_ne (hc.ne_copy hfits)]
    rfl
  refine { h with
    space := hspace
    recoverable := h.recoverable.write_log hempty hfits
    reads := fun _ c hc' => by rw [hread c hc',h.reads (.inr hc) c hc']
    progress := ⟨?_,hc,fun i c hi hci => ?_⟩ }
  · dsimp only
    rwa [Function.update_of_ne (by omega)]
  · rw [hread c (h.home c (List.mem_of_getElem? hci))]
    dsimp only
    by_cases he : i = tail
    · subst he
      rw [Function.update_self]
      rw [hb] at hci
      cases hci
      rfl
    · rw [Function.update_of_ne (by omega)]
      exact hcopies i c (by omega) hci

/-- The header is written: the commit itself. -/
theorem commit_head (h : Refines sb s t) (hph : s.phase = .write_log tail)
    (htail : s.lh.length ≤ tail) {s' : State} (hspace : Space s') (hs' : s' = { s with
      disk := Function.update s.disk sb.logstart (write_head s.lh (s.bread sb.logstart))
      phase := .install_trans 0 }) :
    ∃ t', Step .commit t t' ∧ Refines sb s' t' := by
  subst hs'
  have hp := h.progress
  simp only [Progress,hph] at hp
  obtain ⟨hempty,hc,hcopies⟩ := hp
  have hreads := h.reads (.inr hc)
  refine ⟨_,.commit (h.quiet (by simp [hph])),{
    space := hspace
    active := h.active
    recoverable := h.recoverable.write_head hempty h.home h.fits (fun i b hi => ?_) fun b hb hn => ?_
    home := h.home
    fits := h.fits
    dirty := h.dirty
    reads := fun _ b hb => ?_
    progress := ⟨?_,fun _ _ => rfl,fun i _ hi => absurd hi (Nat.not_lt_zero i),?_⟩ }⟩
  · have hi' := (List.getElem?_eq_some_iff.mp hi).1
    rw [hcopies i b (by omega) hi,hreads b (h.home b (List.mem_of_getElem? hi))]
  · dsimp only
    rw [← hreads b hb,h.bread_of_clean hn,h.recoverable.rest b hb (by simp [hempty])]
  · rw [← hreads b hb]
    show (s.dirty b).getD (Function.update s.disk _ _ b) = _
    rw [Function.update_of_ne (hb.ne_head (Nat.zero_lt_of_lt h.fits))]
    rfl
  · dsimp only
    rw [Function.update_self,read_head_write_head]
  · exact fun b hb => by simpa using h.dirty b hb

/-- A block is copied from the log to its place. -/
theorem install (h : Refines sb s t) (hph : s.phase = .install_trans tail)
    (hb : s.lh[tail]? = some b) {s' : State} (hspace : Space s') (hs' : s' = { s with
      disk := Function.update s.disk b (s.bread (sb.logstart + tail + 1))
      dirty := Function.update s.dirty b none
      phase := .install_trans (tail + 1) }) : Refines sb s' t := by
  subst hs'
  have hp := h.progress
  simp only [Progress,hph] at hp
  obtain ⟨hhead,hlive,hinst,hdirty⟩ := hp
  have hmem := List.mem_of_getElem? hb
  have hhome := h.home b hmem
  have htail := (List.getElem?_eq_some_iff.mp hb).1
  have hfits : tail + 1 < sb.nlog := by have := h.fits; omega
  have hcopy : s.bread (sb.logstart + tail + 1) = t.durable b := by
    rw [h.bread_of_clean fun hm => (h.home _ hm).ne_copy hfits rfl,
      h.recoverable.copies tail b (by rw [hhead]; exact hb)]
  refine { h with
    space := hspace
    recoverable := h.recoverable.install (by rw [hhead]; exact hmem)
    dirty := fun c hc => ?_
    reads := fun hup c hc => ?_
    progress := ⟨?_,hlive,fun i c hi hci => ?_,fun c hc => ?_⟩ }
  · by_cases he : c = b
    · exact he ▸ hmem
    · exact h.dirty c (by simpa [Function.update_of_ne he] using hc)
  · have hr := h.reads (.inr (by simpa [State.up,hph] using hup)) c hc
    show (Function.update s.dirty b none c).getD (Function.update s.disk b _ c) = _
    by_cases he : c = b
    · subst he
      rw [Function.update_self,Function.update_self,Option.getD_none,hcopy,hlive c hc]
    · rw [Function.update_of_ne he,Function.update_of_ne he]
      exact hr
  · dsimp only
    rwa [Function.update_of_ne (hhome.ne_head (Nat.zero_lt_of_lt hfits)).symm]
  · dsimp only
    rw [Function.update_apply]
    split
    · rename_i he
      rw [he,hcopy]
    · rename_i he
      refine hinst i c ?_ hci
      by_contra hlt
      obtain rfl : i = tail := by omega
      rw [hb] at hci
      exact he (Option.some.inj hci).symm
  · have he : c ≠ b := by
      rintro rfl
      exact hc (Function.update_self ..)
    have hc' := hdirty c (by simpa [Function.update_of_ne he] using hc)
    rw [List.drop_eq_getElem_cons htail,List.mem_cons] at hc'
    refine hc'.resolve_left fun hcb => he ?_
    rw [hcb,(List.getElem?_eq_some_iff.mp hb).2]

/-- The log is emptied. -/
theorem clear (h : Refines sb s t) (hph : s.phase = .install_trans tail)
    (htail : s.lh.length ≤ tail) {s' : State} (hspace : Space s') (hs' : s' = { s with
      disk := Function.update s.disk sb.logstart (write_head [] (s.bread sb.logstart))
      lh := []
      committing := false
      phase := .idle }) : Refines sb s' t := by
  subst hs'
  have hp := h.progress
  simp only [Progress,hph] at hp
  obtain ⟨hhead,hlive,hinst,hdirty⟩ := hp
  have hclean : ∀ c, s.dirty c = none := by
    intro c
    by_contra hc
    have := hdirty c hc
    simp [List.drop_eq_nil_of_le htail] at this
  have hinst' : ∀ b ∈ s.lh, s.disk b = t.durable b := by
    intro b hb
    obtain ⟨i,hi⟩ := List.mem_iff_getElem?.mp hb
    exact hinst i b (by have := (List.getElem?_eq_some_iff.mp hi).1; omega) hi
  have hpos := Nat.zero_lt_of_lt h.fits
  refine {
    space := hspace
    active := h.active
    recoverable := h.recoverable.clear (by rw [hhead]; exact hinst')
    home := by simp
    fits := hpos
    dirty := fun c hc => (hc (hclean c)).elim
    reads := fun _ b hb => ?_
    progress := ⟨?_,fun _ => rfl⟩ }
  · simp only [State.bread,hclean,Option.getD_none]
    rw [Function.update_of_ne (hb.ne_head hpos),hlive b hb]
    by_cases hm : b ∈ s.lh
    · exact hinst' b hm
    · exact h.recoverable.rest b hb (by rwa [hhead])
  · dsimp only
    rw [Function.update_self,read_head_write_head]

/-- A step of the log is none of the store, a commit, or the step that the store sees. -/
theorem step {op : Op} (h : Refines sb s t) (hs : Completes (Fs.step sb) (Used sb) op s s') :
    ∃ es t', Trace Step t es t' ∧ Refines sb s' t' ∧ es.filterMap Event.seen = op.seen.toList := by
  obtain ⟨hu,⟨⟩,hr⟩ := hs
  have hspace : Space s' := (h.space.step hu).of_ok hr
  cases op with
  | begin_op p =>
    obtain ⟨t',ht,h'⟩ := h.begin_op hu hr
    exact ⟨_,t',.single ht,h',rfl⟩
  | log_write p b data =>
    obtain ⟨t',ht,h'⟩ := h.log_write hu hr
    exact ⟨_,t',.single ht,h',rfl⟩
  | end_op p =>
    obtain ⟨t',ht,h'⟩ := h.end_op hu hr
    exact ⟨_,t',.single ht,h',rfl⟩
  | crash =>
    obtain ⟨t',ht,h'⟩ := h.crash hr
    exact ⟨_,t',.single ht,h',rfl⟩
  | initlog => exact ⟨[],t,.nil,h.initlog hr,rfl⟩
  | commit =>
    rcases (commit_spec sb s).of_ok hr with ⟨tail,hph,hl,rfl⟩ | ⟨tail,b,hph,hb,hs'⟩ |
      ⟨tail,hph,hle,-,hs'⟩ | ⟨tail,b,hph,hb,hs'⟩ | ⟨tail,hph,hle,hs'⟩
    · exact ⟨[],t,.nil,h.commit_empty hph hl hspace,rfl⟩
    · exact ⟨[],t,.nil,h.commit_copy hph hb hspace hs',rfl⟩
    · obtain ⟨t',ht,h'⟩ := h.commit_head hph hle hspace hs'
      exact ⟨_,t',.single ht,h',rfl⟩
    · exact ⟨[],t,.nil,h.install hph hb hspace hs',rfl⟩
    · exact ⟨[],t,.nil,h.clear hph hle hspace hs',rfl⟩

end Refines

theorem Formatted.refines {sb : Superblock} {s : State} (h : Formatted sb s) (hn : 0 < sb.nlog) :
    Refines sb s (.fresh s.disk) where
  space := h.space
  active p := by simp [fresh,h.ops]
  recoverable := ⟨by simp [h.empty],by simpa [h.empty] using hn,fun i b hi => by simp [h.empty] at hi,
    fun _ _ _ => rfl⟩
  home := by simp [h.lh]
  fits := by simpa [h.lh] using hn
  dirty b hb := by simp [h.dirty] at hb
  reads hup := by simp [State.up,h.phase,h.committing] at hup
  progress := by
    simp only [Progress,h.phase]
    exact ⟨h.committing,h.lh,fun _ _ => rfl⟩

/-- In every interleaving of system calls with the steps of commits and recoveries, and with crashes
between any two writes to the disk, the blocks outside of the log are those of an atomic store that
sees the same system calls and crashes, and all is durable whenever no system call is active. -/
theorem log_atomic {sb : Superblock} {s₀ s : State} {ops : List Op} (h : Formatted sb s₀)
    (hn : 0 < sb.nlog) (hr : Runs sb s₀ ops s) :
    ∃ es t, Trace Step (fresh s₀.disk) es t ∧ es.filterMap Event.seen = ops.filterMap Op.seen ∧
      (∀ p, p ∈ t.active ↔ s.ops p ≠ none) ∧
      (s.up → ∀ b, Home sb b → s.bread b = t.live b) ∧
      (s.phase = .idle → t.active = ∅ → ∀ b, Home sb b → t.durable b = t.live b) := by
  obtain ⟨es,t,htr,href,hseen⟩ := hr.simulates (fun _ _ _ _ h hs => h.step hs) (h.refines hn)
  refine ⟨es,t,htr,hseen,href.active,href.reads,fun hidle hact b hb => ?_⟩
  have hp := href.progress
  simp only [Progress,hidle] at hp
  have hl := hp.2 hact
  rw [← href.reads (.inl hidle) b hb,href.bread_of_clean (by simp [hl]),
    href.recoverable.rest b hb (by simp [hp.1])]

/-- A system call has written a block and ended, and the commit has copied the block to the log. -/
theorem exists_copied : ∃ s, Runs ⟨2,30⟩ blank [.initlog,.commit,.begin_op 0,
    .log_write 0 40 fun _ => 7,.end_op 0,.commit] s ∧ s.phase = .write_log 1 := by
  have h₁ : Runs ⟨2,30⟩ blank [.initlog] _ := .single ⟨trivial,(),rfl⟩
  have h₂ : Runs ⟨2,30⟩ blank [.initlog,.commit] _ := h₁.snoc (l := Op.commit) ⟨trivial,(),rfl⟩
  have h₃ : Runs ⟨2,30⟩ blank [.initlog,.commit,.begin_op 0] _ :=
    h₂.snoc (l := Op.begin_op 0) ⟨⟨.inl rfl,rfl⟩,(),rfl⟩
  have h₄ : Runs ⟨2,30⟩ blank [.initlog,.commit,.begin_op 0,.log_write 0 40 fun _ => 7] _ :=
    h₃.snoc (l := Op.log_write 0 40 fun _ => 7) ⟨⟨⟨∅,rfl,by decide⟩,.inr (by decide)⟩,(),rfl⟩
  have h₅ : Runs ⟨2,30⟩ blank [.initlog,.commit,.begin_op 0,.log_write 0 40 fun _ => 7,.end_op 0] _ :=
    h₄.snoc (l := Op.end_op 0) ⟨nofun,(),rfl⟩
  exact ⟨_,h₅.snoc (l := Op.commit) ⟨trivial,(),rfl⟩,rfl⟩

theorem log_atomic_copied : ∃ s : State, s.phase = .write_log 1 ∧
    ∃ es t, Trace Step (fresh blank.disk) es t ∧
      es.filterMap Event.seen = [.start 0,.write 0 40 fun _ => 7,.finish 0] ∧
      (∀ p, p ∈ t.active ↔ s.ops p ≠ none) ∧
      (s.up → ∀ b, Home ⟨2,30⟩ b → s.bread b = t.live b) ∧
      (s.phase = .idle → t.active = ∅ → ∀ b, Home ⟨2,30⟩ b → t.durable b = t.live b) := by
  obtain ⟨s,hr,hph⟩ := exists_copied
  exact ⟨s,hph,log_atomic (formatted_blank ⟨2,30⟩) (by decide) hr⟩

/-- Installing what is left of the log ends, and in an idle machine. -/
theorem Refines.recover {sb : Superblock} {s : State} {t : Store} {tail m : ℕ}
    (h : Refines sb s t) (hph : s.phase = .install_trans tail) (hm : s.lh.length = tail + m) :
    ∃ s', Runs sb s (.replicate (m + 1) .commit) s' ∧ Refines sb s' t ∧ s'.phase = .idle := by
  induction m generalizing s tail with
  | zero =>
    cases hrun : commit sb s with
    | error e u => simpa [hph] using ((commit_spec sb s).of_error hrun).2
    | ok r u =>
      have hspace : Space u := (h.space.step (show Used sb .commit s from trivial)).of_ok hrun
      have hb : s.lh[tail]? = none := List.getElem?_eq_none_iff.mpr (by omega)
      rcases (commit_spec sb s).of_ok hrun with ⟨_,hph',-⟩ | ⟨_,_,hph',-⟩ | ⟨_,hph',-⟩ |
        ⟨tail',b,hph',hb',-⟩ | ⟨_,hph',hle,hu⟩
      · simp [hph] at hph'
      · simp [hph] at hph'
      · simp [hph] at hph'
      · rw [hph] at hph'
        cases hph'
        simp [hb] at hb'
      · exact ⟨u,.single ⟨trivial,r,hrun⟩,h.clear hph' hle hspace hu,by rw [hu]⟩
  | succ m ih =>
    cases hrun : commit sb s with
    | error e u => simpa [hph] using ((commit_spec sb s).of_error hrun).2
    | ok r u =>
      have hspace : Space u := (h.space.step (show Used sb .commit s from trivial)).of_ok hrun
      rcases (commit_spec sb s).of_ok hrun with ⟨_,hph',-⟩ | ⟨_,_,hph',-⟩ | ⟨_,hph',-⟩ |
        ⟨tail',b,hph',hb',hu⟩ | ⟨tail',hph',hle,hu⟩
      · simp [hph] at hph'
      · simp [hph] at hph'
      · simp [hph] at hph'
      · rw [hph] at hph'
        cases hph'
        obtain ⟨s',hr,href,hidle⟩ := ih (h.install hph hb' hspace hu) (by rw [hu])
          (by rw [hu]; dsimp only; omega)
        refine ⟨s',?_,href,hidle⟩
        rw [List.replicate_succ]
        exact (Trace.single ⟨trivial,r,hrun⟩).append hr
      · rw [hph] at hph'
        cases hph'
        omega

/-- After a crash at any point, recovery ends after as many writes as the header on the disk counts
blocks and one more, and leaves the contents of a moment at which no system call was active. -/
theorem recovers {sb : Superblock} {s₀ s : State} {ops : List Op} (h : Formatted sb s₀)
    (hn : 0 < sb.nlog) (hr : Runs sb s₀ ops s) :
    ∃ es t, Trace Step (fresh s₀.disk) es t ∧ es.filterMap Event.seen = ops.filterMap Op.seen ∧
      ∃ es' u, es' <+: es ∧ Trace Step (fresh s₀.disk) es' u ∧ u.active = ∅ ∧
        ∃ s', Runs sb s (.crash :: .initlog ::
            .replicate ((read_head (s.disk sb.logstart)).length + 1) .commit) s' ∧
          s'.phase = .idle ∧ ∀ b, Home sb b → s'.bread b = u.live b := by
  obtain ⟨es,t,htr,href,hseen⟩ := hr.simulates (fun _ _ _ _ h hs => h.step hs) (h.refines hn)
  obtain ⟨es',u,hpre,hu,hact,hlive⟩ := durable_quiescent htr
  refine ⟨es,t,htr,hseen,es',u,hpre,hu,hact,?_⟩
  have hcrash : step sb .crash s = .ok () { s with
      dirty := fun _ => none, lh := [], outstanding := 0, committing := false, phase := .off
      ops := fun _ => none } := rfl
  obtain ⟨t₁,ht₁,href₁⟩ := href.crash hcrash
  have hinit : step sb .initlog { s with
      dirty := fun _ => none, lh := [], outstanding := 0, committing := false, phase := .off
      ops := fun _ => none } = .ok () { s with
      dirty := fun _ => none, lh := read_head (s.disk sb.logstart), outstanding := 0
      committing := false, phase := .install_trans 0, ops := fun _ => none } := rfl
  have href₂ := href₁.initlog hinit
  obtain ⟨s',hr',href',hidle⟩ := href₂.recover rfl (Nat.zero_add _).symm
  have hrun : Runs sb s [.crash,.initlog] _ :=
    (Trace.single ⟨trivial,(),hcrash⟩).append (.single ⟨trivial,(),hinit⟩)
  refine ⟨s',hrun.append hr',hidle,fun b hb => ?_⟩
  rw [href'.reads (.inl hidle) b hb,hlive]
  cases ht₁
  rfl

theorem recovers_copied : ∃ s : State, s.phase = .write_log 1 ∧
    ∃ (es : List (Event ℕ Sector Proc)) (t : Store), Trace Step (fresh blank.disk) es t ∧
      es.filterMap Event.seen = [.start 0,.write 0 40 fun _ => 7,.finish 0] ∧
      ∃ es' u, es' <+: es ∧ Trace Step (fresh blank.disk) es' u ∧ u.active = ∅ ∧
        ∃ s', Runs ⟨2,30⟩ s (.crash :: .initlog ::
            .replicate ((read_head (s.disk 2)).length + 1) .commit) s' ∧
          s'.phase = .idle ∧ ∀ b, Home ⟨2,30⟩ b → s'.bread b = u.live b := by
  obtain ⟨s,hr,hph⟩ := exists_copied
  exact ⟨s,hph,recovers (formatted_blank ⟨2,30⟩) (by decide) hr⟩

end ResumePointers.Fs

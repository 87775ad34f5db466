import ResumePointers.Fs.Bcache
import ResumePointers.Lib.Counted

/-! The buffer cache is a store whose blocks are held by one process at a time: what a process reads
is what was written last, whatever is recycled and written back in between. -/
namespace ResumePointers.Fs.Bcache

open LockedStore

variable {α Proc : Type}

/-- The reference that a process has while it does not have the lock. -/
def Pc.refs : Pc → Multiset Slot
  | asleep b => {b}
  | releasing b => {b}
  | _ => 0

/-- A process is in `bread` with the lock of the buffer. -/
def Pc.reads (b : Slot) (pc : Pc) : Prop := pc = .locked b ∨ pc = .io b true

theorem reads_unique {pc : Pc} {a b : Slot} (ha : pc.reads a) (hb : pc.reads b) : a = b := by
  rcases ha with rfl | rfl <;> rcases hb with hb | hb <;> cases hb <;> rfl

theorem update_reads [DecidableEq Proc] {pcs : Proc → Pc} {p : Proc} {pc : Pc}
    (h : ∀ a, pc.reads a ↔ (pcs p).reads a) (a : Slot) (q : Proc) :
    (Function.update pcs p pc q).reads a ↔ (pcs q).reads a := by
  by_cases hq : q = p
  · subst hq
    rw [Function.update_self,h]
  · rw [Function.update_of_ne hq]

section Inv

variable [DecidableEq Proc]

def State.own (s : State α Proc) (p : Proc) : Multiset Slot :=
  (Finset.univ.filter fun b => (s.buf b).lock = some p).val + (s.pc p).refs

theorem count_own (s : State α Proc) (p : Proc) (b : Slot) :
    (s.own p).count b = (if (s.buf b).lock = some p then 1 else 0) + (s.pc p).refs.count b := by
  rw [State.own,Multiset.count_add,Multiset.count_eq_of_nodup (Finset.nodup _)]
  simp

structure Inv [Fintype Proc] (s : State α Proc) : Prop where
  refs : Counted (fun b => (s.buf b).refcnt) s.own
  uniq : ∀ b b', (s.buf b).block = (s.buf b').block → (s.buf b).block.1 ≠ 0 → b = b'
  mru : ∀ b, b ∈ s.mru
  dirty : ∀ b, (s.buf b).dirty = true → (s.buf b).valid = true
  dev : ∀ b, (s.buf b).refcnt ≠ 0 → (s.buf b).block.1 ≠ 0
  valid : ∀ b p, (s.buf b).lock = some p → (s.buf b).valid = true ∨ (s.pc p).reads b
  place : ∀ p b, (s.pc p = .locked b ∨ ∃ r, s.pc p = .io b r) → (s.buf b).lock = some p
  asked : ∀ p b r, s.pc p = .io b r →
    b ∈ s.idequeue ∨ (s.buf b).valid = true ∧ (s.buf b).dirty = false

variable [Fintype Proc] {s t : State α Proc} {p u : Proc} {b : Slot} {blk : Block}

theorem Inv.start (h : Booted s) : Inv s := by
  have hown : ∀ p, s.own p = 0 := fun p => by
    rw [State.own,h.pc p]
    simp [h.buf,Pc.refs]
  refine ⟨.start (fun b => (h.buf b).2.2.2.1) hown,fun b b' _ hb => ?_,fun b => ?_,fun b hb => ?_,
    fun b hb => ?_,fun b p hb => ?_,fun p b hb => ?_,fun p b r hb => ?_⟩
  · simp [(h.buf b).1] at hb
  · simp [h.mru]
  · simp [(h.buf b).2.2.1] at hb
  · exact absurd (h.buf b).2.2.2.1 hb
  · simp [(h.buf b).2.2.2.2] at hb
  · simp [h.pc p] at hb
  · simp [h.pc p] at hb

/-- One process goes on and changes one buffer. -/
theorem Inv.update (h : Inv s) {x : Buf α Proc} {pc : Pc}
    (hbuf : t.buf = Function.update s.buf b x) (hpc : t.pc = Function.update s.pc p pc)
    (href : x.refcnt + (if (s.buf b).lock = some p then 1 else 0) + (s.pc p).refs.count b =
      (s.buf b).refcnt + (if x.lock = some p then 1 else 0) + pc.refs.count b)
    (hrefs : ∀ a ≠ b, a ∉ (s.pc p).refs ∧ a ∉ pc.refs)
    (hblock : x.block = (s.buf b).block ∨ ∀ b', (s.buf b').block ≠ x.block)
    (hmru : ∀ b, b ∈ t.mru) (hdirty : x.dirty = true → x.valid = true)
    (hdev : x.refcnt ≠ 0 → x.block.1 ≠ 0)
    (hlock : ∀ u ≠ p, x.lock = some u ↔ (s.buf b).lock = some u)
    (hsame : ∀ u ≠ p, (s.buf b).lock = some u →
      x.valid = (s.buf b).valid ∧ x.dirty = (s.buf b).dirty)
    (hvalid : x.lock = some p → x.valid = true ∨ pc.reads b)
    (hother : ∀ a ≠ b, ¬(s.pc p).reads a)
    (hplace : ∀ a, (pc = .locked a ∨ ∃ r, pc = .io a r) → a = b ∧ x.lock = some p)
    (hqueue : ∀ a ∈ s.idequeue, a ∈ t.idequeue)
    (hasked : ∀ r, pc = .io b r → b ∈ t.idequeue ∨ x.valid = true ∧ x.dirty = false) : Inv t := by
  have hself : t.buf b = x := by rw [hbuf,Function.update_self]
  have hne : ∀ a ≠ b, t.buf a = s.buf a := fun a ha => by rw [hbuf,Function.update_of_ne ha]
  have hpself : t.pc p = pc := by rw [hpc,Function.update_self]
  have hpne : ∀ u ≠ p, t.pc u = s.pc u := fun u hu => by rw [hpc,Function.update_of_ne hu]
  have hlocks : ∀ a, ∀ u ≠ p, (t.buf a).lock = some u ↔ (s.buf a).lock = some u := fun a u hu => by
    by_cases ha : a = b
    · rw [ha,hself]
      exact hlock u hu
    · rw [hne a ha]
  refine ⟨h.refs.change p (fun u hu => ?_) fun a => ?_,fun a a' haa hd => ?_,hmru,fun a ha => ?_,
    fun a ha => ?_,fun a u ha => ?_,fun u a ha => ?_,fun u a r ha => ?_⟩
  · rw [State.own,State.own,hpne u hu]
    simp only [hlocks _ u hu]
  · rw [count_own,count_own,hpself]
    by_cases ha : a = b
    · subst ha
      rw [hself]
      omega
    · rw [hne a ha,Multiset.count_eq_zero.mpr (hrefs a ha).1,Multiset.count_eq_zero.mpr (hrefs a ha).2]
  · by_cases ha : a = b <;> by_cases ha' : a' = b
    · rw [ha,ha']
    · rw [ha,hself,hne a' ha'] at haa
      rw [ha,hself] at hd
      rcases hblock with hx | hx
      · rw [hx] at haa hd
        rw [ha]
        exact h.uniq b a' haa hd
      · exact absurd haa.symm (hx a')
    · rw [ha',hself,hne a ha] at haa
      rw [hne a ha] at hd
      rcases hblock with hx | hx
      · rw [hx] at haa
        rw [ha']
        exact h.uniq a b haa hd
      · exact absurd haa (hx a)
    · rw [hne a ha,hne a' ha'] at haa
      rw [hne a ha] at hd
      exact h.uniq a a' haa hd
  · by_cases hab : a = b
    · rw [hab,hself] at ha ⊢
      exact hdirty ha
    · rw [hne a hab] at ha ⊢
      exact h.dirty a ha
  · by_cases hab : a = b
    · rw [hab,hself] at ha ⊢
      exact hdev ha
    · rw [hne a hab] at ha ⊢
      exact h.dev a ha
  · by_cases hu : u = p
    · subst hu
      rw [hpself]
      by_cases hab : a = b
      · subst hab
        rw [hself] at ha ⊢
        exact hvalid ha
      · rw [hne a hab] at ha ⊢
        exact .inl ((h.valid a u ha).resolve_right (hother a hab))
    · rw [hpne u hu]
      have hs := (hlocks a u hu).mp ha
      refine (h.valid a u hs).imp_left fun hv => ?_
      by_cases hab : a = b
      · subst hab
        rw [hself,(hsame u hu hs).1,hv]
      · rw [hne a hab,hv]
  · by_cases hu : u = p
    · subst hu
      rw [hpself] at ha
      obtain ⟨rfl,hx⟩ := hplace a ha
      rw [hself,hx]
    · rw [hpne u hu] at ha
      exact (hlocks a u hu).mpr (h.place u a ha)
  · by_cases hu : u = p
    · subst hu
      rw [hpself] at ha
      obtain ⟨rfl,-⟩ := hplace a (.inr ⟨r,ha⟩)
      rw [hself]
      exact hasked r ha
    · rw [hpne u hu] at ha
      rcases h.asked u a r ha with hq | hv
      · exact .inl (hqueue a hq)
      · by_cases hab : a = b
        · subst hab
          obtain ⟨h1,h2⟩ := hsame u hu (h.place u a (.inr ⟨r,ha⟩))
          rw [hself,h1,h2]
          exact .inr hv
        · rw [hne a hab]
          exact .inr hv

end Inv

/-- A process has the lock of a buffer and is back from `bread`. -/
def Held (s : State α Proc) (b : Slot) (p : Proc) : Prop :=
  (s.buf b).lock = some p ∧ ¬(s.pc p).reads b

/-- The store that the cache and the disk show together. -/
structure Shows (s : State α Proc) (t : LockedStore Block α Proc) : Prop where
  data : ∀ b, (s.buf b).valid = true → (s.buf b).block.1 ≠ 0 →
    (s.buf b).data = t.contents (s.buf b).block
  disk : ∀ blk : Block, blk.1 ≠ 0 → (∀ b, (s.buf b).block = blk → (s.buf b).dirty = false) →
    s.disk blk = t.contents blk
  holder : ∀ blk : Block, blk.1 ≠ 0 → ∀ p, t.holder blk = some p ↔
    ∃ b, (s.buf b).block = blk ∧ Held s b p

/-- The store after an event, if there is one. -/
def Replies (t : LockedStore Block α Proc) : Option (Event α Proc) → LockedStore Block α Proc → Prop
  | none, t' => t' = t
  | some e, t' => Step e t t'

namespace Shows

variable {s s' : State α Proc} {t : LockedStore Block α Proc} {p : Proc} {b : Slot}

theorem start (h : Booted s) : Shows s (fresh s.disk) where
  data b hb := by simp [(h.buf b).2.1] at hb
  disk _ _ _ := rfl
  holder blk _ p := by simp [fresh,Held,h.buf]

/-- The contents of buffers and who holds them stay. -/
theorem quiet (h : Shows s t) (hbuf : ∀ b, (s'.buf b).block = (s.buf b).block ∧
      (s'.buf b).valid = (s.buf b).valid ∧ (s'.buf b).dirty = (s.buf b).dirty ∧
      (s'.buf b).data = (s.buf b).data)
    (hdisk : s'.disk = s.disk) (hheld : ∀ b p, Held s' b p ↔ Held s b p) : Shows s' t where
  data b hv hd := by
    obtain ⟨h1,h2,-,h4⟩ := hbuf b
    rw [h1] at hd ⊢
    rw [h4]
    exact h.data b (h2 ▸ hv) hd
  disk blk hd hb := by
    rw [hdisk]
    exact h.disk blk hd fun b hblk => (hbuf b).2.2.1 ▸ hb b ((hbuf b).1.trans hblk)
  holder blk hd p := by
    rw [h.holder blk hd p]
    exact exists_congr fun b => by rw [(hbuf b).1,hheld]

/-- A buffer that nobody uses is for another block now. -/
theorem recycle (h : Shows s t) {x : Buf α Proc} (hbuf : s'.buf = Function.update s.buf b x)
    (hx : x.valid = false ∧ x.dirty = false ∧ x.lock = none) (hb : (s.buf b).dirty = false)
    (hlock : (s.buf b).lock = none) (hdisk : s'.disk = s.disk)
    (hpc : ∀ a ≠ b, ∀ p, (s'.pc p).reads a ↔ (s.pc p).reads a) : Shows s' t := by
  have hself : s'.buf b = x := by rw [hbuf,Function.update_self]
  have hne : ∀ a ≠ b, s'.buf a = s.buf a := fun a ha => by rw [hbuf,Function.update_of_ne ha]
  refine ⟨fun a ha hd => ?_,fun blk hd hblk => ?_,fun blk hd p => ?_⟩
  · have hab : a ≠ b := by
      rintro rfl
      rw [hself,hx.1] at ha
      cases ha
    rw [hne a hab] at ha hd ⊢
    exact h.data a ha hd
  · rw [hdisk]
    refine h.disk blk hd fun a ha => ?_
    by_cases hab : a = b
    · rw [hab,hb]
    · rw [← hne a hab] at ha ⊢
      exact hblk a ha
  · rw [h.holder blk hd p]
    refine exists_congr fun a => ?_
    by_cases hab : a = b
    · subst hab
      simp [Held,hself,hx.2.2,hlock]
    · rw [Held,Held,hne a hab,hpc a hab]

/-- A process is back from `bread`. -/
theorem got [DecidableEq Proc] (h : Shows s t) (huniq : ∀ a, (s.buf a).block = (s.buf b).block → a = b)
    (hlock : (s.buf b).lock = some p) (hp : (s.pc p).reads b) (hv : (s.buf b).valid = true)
    (hd : (s.buf b).block.1 ≠ 0) :
    ∃ t', Replies t (some (.got p (s.buf b).block (s.buf b).data)) t' ∧ Shows (s.goto p .user) t' := by
  have hnone : t.holder (s.buf b).block = none := by
    by_contra hn
    obtain ⟨q,hq⟩ := Option.ne_none_iff_exists'.mp hn
    obtain ⟨a,ha,hl,hnr⟩ := (h.holder _ hd q).mp hq
    rw [huniq a ha,hlock] at hl
    cases hl
    exact hnr (huniq a ha ▸ hp)
  refine ⟨{ t with holder := Function.update t.holder (s.buf b).block (some p) },?_,h.data,h.disk,
    fun blk hblk q => ?_⟩
  · rw [h.data b hv hd]
    exact .got hnone p
  have hself : Held (s.goto p .user) b q ↔ q = p := by
    constructor
    · rintro ⟨hl,-⟩
      exact Option.some.inj (hl.symm.trans hlock)
    · rintro rfl
      exact ⟨hlock,by simp [State.goto,Pc.reads]⟩
  dsimp only
  by_cases hb : blk = (s.buf b).block
  · subst hb
    rw [Function.update_self,Option.some.injEq,eq_comm,← hself]
    refine ⟨fun hq => ⟨b,rfl,hq⟩,fun ⟨a,ha,hq⟩ => ?_⟩
    rwa [huniq a ha] at hq
  · rw [Function.update_of_ne hb,h.holder blk hblk q]
    refine exists_congr fun a => and_congr_right fun ha => ?_
    have hab : a ≠ b := fun hab => hb (ha.symm.trans (congrArg (fun b => (s.buf b).block) hab))
    by_cases hq : q = p
    · subst hq
      have hnr : ¬(s.pc q).reads a := fun hr => hab (reads_unique hr hp)
      exact and_congr_right fun _ => iff_of_true hnr (by simp [State.goto,Pc.reads])
    · simp [Held,State.goto,hq]

/-- Who holds a buffer writes to it. -/
theorem put (h : Shows s t) (huniq : ∀ a, (s.buf a).block = (s.buf b).block → a = b)
    (hheld : Held s b p) (hd : (s.buf b).block.1 ≠ 0) {x : Buf α Proc} {v : α}
    (hbuf : s'.buf = Function.update s.buf b x)
    (hx : x.block = (s.buf b).block ∧ x.dirty = true ∧ x.lock = (s.buf b).lock ∧ x.data = v)
    (hdisk : s'.disk = s.disk) (hpc : ∀ a p, (s'.pc p).reads a ↔ (s.pc p).reads a) :
    ∃ t', Replies t (some (.put p (s.buf b).block v)) t' ∧ Shows s' t' := by
  have hself : s'.buf b = x := by rw [hbuf,Function.update_self]
  have hne : ∀ a ≠ b, s'.buf a = s.buf a := fun a ha => by rw [hbuf,Function.update_of_ne ha]
  have hblk : ∀ a, (s'.buf a).block = (s.buf a).block := fun a => by
    by_cases ha : a = b
    · rw [ha,hself,hx.1]
    · rw [hne a ha]
  have hlock : ∀ a, (s'.buf a).lock = (s.buf a).lock := fun a => by
    by_cases ha : a = b
    · rw [ha,hself,hx.2.2.1]
    · rw [hne a ha]
  refine ⟨{ t with contents := Function.update t.contents (s.buf b).block v },
    .put ((h.holder _ hd p).mpr ⟨b,rfl,hheld⟩) v,fun a ha hda => ?_,fun blk hdb hcl => ?_,
    fun blk hdb q => ?_⟩
  · dsimp only
    by_cases hab : a = b
    · subst hab
      rw [hblk a,Function.update_self,hself,hx.2.2.2]
    · rw [hblk a] at hda ⊢
      rw [Function.update_of_ne fun he => hab (huniq a he)]
      rw [hne a hab] at ha ⊢
      exact h.data a ha hda
  · have hb : blk ≠ (s.buf b).block := by
      rintro rfl
      have := hcl b (hblk b)
      rw [hself,hx.2.1] at this
      cases this
    dsimp only
    rw [hdisk,Function.update_of_ne hb]
    refine h.disk blk hdb fun a ha => ?_
    have hab : a ≠ b := fun hab => hb (ha.symm.trans (congrArg (fun b => (s.buf b).block) hab))
    rw [← hne a hab]
    exact hcl a ((hblk a).trans ha)
  · rw [h.holder blk hdb q]
    refine exists_congr fun a => ?_
    rw [hblk a,Held,Held,hlock a,hpc a q]

/-- Who holds a buffer gives it back. -/
theorem release (h : Shows s t) (huniq : ∀ a, (s.buf a).block = (s.buf b).block → a = b)
    (hheld : Held s b p) (hd : (s.buf b).block.1 ≠ 0) {x : Buf α Proc}
    (hbuf : s'.buf = Function.update s.buf b x)
    (hx : x = { s.buf b with lock := none }) (hdisk : s'.disk = s.disk)
    (hpc : ∀ a p, (s'.pc p).reads a ↔ (s.pc p).reads a) :
    ∃ t', Replies t (some (.release p (s.buf b).block)) t' ∧ Shows s' t' := by
  subst hx
  have hne : ∀ a ≠ b, s'.buf a = s.buf a := fun a ha => by rw [hbuf,Function.update_of_ne ha]
  have hsame : ∀ a, (s'.buf a).block = (s.buf a).block ∧ (s'.buf a).valid = (s.buf a).valid ∧
      (s'.buf a).dirty = (s.buf a).dirty ∧ (s'.buf a).data = (s.buf a).data := fun a => by
    by_cases ha : a = b
    · rw [ha,hbuf,Function.update_self]
      exact ⟨rfl,rfl,rfl,rfl⟩
    · rw [hne a ha]
      exact ⟨rfl,rfl,rfl,rfl⟩
  refine ⟨{ t with holder := Function.update t.holder (s.buf b).block none },
    .release ((h.holder _ hd p).mpr ⟨b,rfl,hheld⟩),fun a ha hda => ?_,fun blk hdb hcl => ?_,
    fun blk hdb q => ?_⟩
  · obtain ⟨h1,h2,-,h4⟩ := hsame a
    rw [h1] at hda ⊢
    rw [h4]
    exact h.data a (h2 ▸ ha) hda
  · rw [hdisk]
    exact h.disk blk hdb fun a ha => (hsame a).2.2.1 ▸ hcl a ((hsame a).1.trans ha)
  · dsimp only
    by_cases hb : blk = (s.buf b).block
    · subst hb
      rw [Function.update_self]
      refine iff_of_false nofun ?_
      rintro ⟨a,ha,hl,-⟩
      rw [huniq a ((hsame a).1 ▸ ha),hbuf,Function.update_self] at hl
      cases hl
    · rw [Function.update_of_ne hb,h.holder blk hdb q]
      refine exists_congr fun a => ?_
      rw [(hsame a).1]
      refine and_congr_right fun ha => ?_
      have hab : a ≠ b := fun hab => hb (ha.symm.trans (congrArg (fun b => (s.buf b).block) hab))
      rw [Held,Held,hne a hab,hpc a q]

/-- The disk is done with a request for a buffer. -/
theorem served (h : Shows s t) (huniq : ∀ a, (s.buf b).block.1 ≠ 0 →
      (s.buf a).block = (s.buf b).block → a = b)
    (hvalid : (s.buf b).dirty = true → (s.buf b).valid = true) {x : Buf α Proc}
    (hbuf : s'.buf = Function.update s.buf b x)
    (hx : x.block = (s.buf b).block ∧ x.lock = (s.buf b).lock)
    (hdata : if (s.buf b).dirty then
        x.data = (s.buf b).data ∧ s'.disk = Function.update s.disk (s.buf b).block (s.buf b).data
      else x.data = s.disk (s.buf b).block ∧ s'.disk = s.disk)
    (hpc : s'.pc = s.pc) : Shows s' t := by
  have hself : s'.buf b = x := by rw [hbuf,Function.update_self]
  have hne : ∀ a ≠ b, s'.buf a = s.buf a := fun a ha => by rw [hbuf,Function.update_of_ne ha]
  have hblk : ∀ a, (s'.buf a).block = (s.buf a).block ∧ (s'.buf a).lock = (s.buf a).lock := fun a => by
    by_cases ha : a = b
    · rw [ha,hself]
      exact hx
    · rw [hne a ha]
      exact ⟨rfl,rfl⟩
  -- what the disk has for the block of the buffer now
  have hcontents : (s.buf b).block.1 ≠ 0 →
      x.data = t.contents (s.buf b).block ∧ s'.disk (s.buf b).block = t.contents (s.buf b).block := by
    intro hd
    cases hb : (s.buf b).dirty with
    | true =>
      obtain ⟨h1,h2⟩ := by simpa [hb] using hdata
      have := h.data b (hvalid hb) hd
      exact ⟨h1.trans this,by rw [h2,Function.update_self,this]⟩
    | false =>
      obtain ⟨h1,h2⟩ := by simpa [hb] using hdata
      have := h.disk (s.buf b).block hd fun a ha => by rw [huniq a hd ha,hb]
      exact ⟨h1.trans this,by rw [h2,this]⟩
  have hrest : ∀ blk ≠ (s.buf b).block, s'.disk blk = s.disk blk := fun blk hb => by
    split at hdata
    · rw [hdata.2,Function.update_of_ne hb]
    · rw [hdata.2]
  refine ⟨fun a ha hda => ?_,fun blk hdb hcl => ?_,fun blk hdb q => ?_⟩
  · rw [(hblk a).1] at hda ⊢
    by_cases hab : a = b
    · subst hab
      rw [hself]
      exact (hcontents hda).1
    · rw [hne a hab] at ha ⊢
      exact h.data a ha hda
  · by_cases hb : blk = (s.buf b).block
    · subst hb
      exact (hcontents hdb).2
    · rw [hrest blk hb]
      refine h.disk blk hdb fun a ha => ?_
      have hab : a ≠ b := fun hab => hb (ha.symm.trans (congrArg (fun b => (s.buf b).block) hab))
      rw [← hne a hab]
      exact hcl a ((hblk a).1.trans ha)
  · rw [h.holder blk hdb q]
    exact exists_congr fun a => by rw [Held,Held,(hblk a).1,(hblk a).2,hpc]

end Shows

/-- Every buffer is referred to or dirty. -/
def Busy (s : State α Proc) : Prop := ∀ b, (s.buf b).refcnt ≠ 0 ∨ (s.buf b).dirty = true

section Steps

variable {s : State α Proc} {t : LockedStore Block α Proc} {p : Proc} {b : Slot} {blk : Block}

theorem user_post {Q : Unit → State α Proc → Prop} {E : Stop → State α Proc → Prop}
    (h : s.pc p = .user → Q () s) (he : E .disabled s) : Post (user p) s Q E := by
  simp only [user,post_bind,post_get]
  split
  · exact h ‹_›
  · exact he

theorem cached_some (h : s.cached blk = some b) : (s.buf b).block = blk := by
  simpa using List.find?_some h

theorem unused_some (h : s.unused = some b) : (s.buf b).refcnt = 0 ∧ (s.buf b).dirty = false := by
  simpa using List.find?_some h

theorem not_reads_user (hp : s.pc p = .user) (a : Slot) : ¬(s.pc p).reads a := by
  rw [hp]
  simp [Pc.reads]

variable [DecidableEq Proc] [Fintype Proc]

/-- A step is one of the store or none, and it panics only where there is no buffer left. -/
abbrev Serves (m : M α Proc (Option (Event α Proc))) (s : State α Proc)
    (t : LockedStore Block α Proc) : Prop :=
  Post m s (fun e s' => Inv s' ∧ ∃ t', Replies t e t' ∧ Shows s' t')
    fun e _ => e = .disabled ∨ e = .panic "bget: no buffers" ∧ Busy s

theorem cached_none (h : Inv s) (hn : s.cached blk = none) (b : Slot) : (s.buf b).block ≠ blk := by
  simpa using List.find?_eq_none.mp hn b (h.mru b)

theorem unused_none (h : Inv s) (hn : s.unused = none) : Busy s := fun b => by
  have := List.find?_eq_none.mp hn b (List.mem_reverse.mpr (h.mru b))
  simpa [or_iff_not_imp_left] using this

/-- Nobody has the lock of a buffer without references. -/
theorem Inv.unlocked (h : Inv s) (hb : (s.buf b).refcnt = 0) : (s.buf b).lock = none := by
  by_contra hl
  obtain ⟨u,hu⟩ := Option.ne_none_iff_exists'.mp hl
  refine h.refs.notMem (i := u) hb ?_
  rw [← Multiset.count_pos,count_own,if_pos hu]
  omega

/-- The one buffer for a block of a device in use. -/
theorem Inv.only (h : Inv s) (hd : (s.buf b).block.1 ≠ 0) :
    ∀ a, (s.buf a).block = (s.buf b).block → a = b := fun a ha => h.uniq a b ha (ha ▸ hd)

/-- A buffer that somebody has the lock of is for a block of a device in use. -/
theorem Inv.dev_of_lock (h : Inv s) (hl : (s.buf b).lock = some p) : (s.buf b).block.1 ≠ 0 := by
  refine h.dev b (h.refs.pos (i := p) (a := b) ?_).ne'
  rw [← Multiset.count_pos,count_own,if_pos hl]
  omega

theorem bread_serves (h : Inv s) (ht : Shows s t) (hblk : blk.1 ≠ 0) : Serves (bread p blk) s t := by
  simp only [Serves,bread,post_bind]
  refine user_post (fun hp => ?_) (.inl rfl)
  have hnr := not_reads_user hp
  have hreads : ∀ b a q, (Function.update s.pc p (.asleep b) q).reads a ↔ (s.pc q).reads a := fun b =>
    update_reads fun a => iff_of_false (by simp [Pc.reads]) (hnr a)
  simp only [bget,post_bind,post_get]
  cases hc : s.cached blk with
  | some b =>
    have hb := cached_some hc
    refine ⟨h.update (p := p) (b := b) rfl rfl ?_ (fun a ha => ?_) (.inl rfl) h.mru (h.dirty b)
      (fun _ => by rw [hb]; exact hblk) (fun _ _ => Iff.rfl) (fun _ _ _ => ⟨rfl,rfl⟩) (fun hl => ?_)
      (fun a _ => hnr a) nofun (fun _ ha => ha) nofun,t,rfl,ht.quiet (fun a => ?_) rfl fun a q => ?_⟩
    · simp only [hp,Pc.refs,Multiset.count_zero,Multiset.count_singleton_self]
      omega
    · simpa [hp,Pc.refs] using ha
    · exact .inl ((h.valid b p hl).resolve_right (hnr b))
    · by_cases ha : a = b
      · subst ha
        simp [State.goto,State.setBuf]
      · simp [State.goto,State.setBuf,ha]
    · refine and_congr (by_cases (fun ha : a = b => ?_) fun ha => ?_) (not_congr (hreads b a q))
      · subst ha
        simp [State.goto,State.setBuf]
      · simp [State.goto,State.setBuf,ha]
  | none =>
    cases hu : s.unused with
    | none => exact .inr ⟨rfl,unused_none h hu⟩
    | some b =>
      obtain ⟨hr,hd⟩ := unused_some hu
      have hl := h.unlocked hr
      refine ⟨h.update (p := p) (b := b) rfl rfl ?_ (fun a ha => ?_) (.inr (cached_none h hc)) h.mru
        nofun (fun _ => hblk) (fun _ _ => Iff.rfl) (fun u _ hu => ?_) (fun hl' => ?_)
        (fun a _ => hnr a) nofun (fun _ ha => ha) nofun,t,rfl,
        ht.recycle rfl ⟨rfl,rfl,hl⟩ hd hl rfl fun a _ q => hreads b a q⟩
      · simp only [hp,hr,Pc.refs,Multiset.count_zero,Multiset.count_singleton_self]
        omega
      · simpa [hp,Pc.refs] using ha
      · rw [hl] at hu
        cases hu
      · rw [hl] at hl'
        cases hl'

theorem acquiresleep_serves (h : Inv s) (ht : Shows s t) (hp : s.pc p = .asleep b) :
    Serves (acquiresleep p b) s t := by
  simp only [Serves,acquiresleep,post_bind,post_get]
  split
  · rename_i hl
    refine ⟨h.update (p := p) (b := b) rfl rfl ?_ (fun a ha => ?_) (.inl rfl) h.mru (h.dirty b)
      (h.dev b) (fun u hu => ?_) (fun u _ hu => ?_) (fun _ => .inr (.inl rfl))
      (fun a _ => by rw [hp]; simp [Pc.reads]) ?_ (fun _ ha => ha) nofun,t,rfl,
      ht.quiet (fun a => ?_) rfl fun a q => ?_⟩
    · simp only [hp,hl,Pc.refs,Multiset.count_zero,Multiset.count_singleton_self]
      simp
    · simpa [hp,Pc.refs] using ha
    · rw [hl]
      simp [Ne.symm hu]
    · rw [hl] at hu
      cases hu
    · rintro a (ha | ⟨r,ha⟩) <;> cases ha
      exact ⟨rfl,rfl⟩
    · by_cases ha : a = b
      · subst ha
        simp [State.goto,State.setBuf]
      · simp [State.goto,State.setBuf,ha]
    · by_cases ha : a = b
      · subst ha
        refine iff_of_false ?_ fun hh => by rw [hh.1] at hl; cases hl
        rintro ⟨h1,h2⟩
        have hq : q = p := by simpa [State.goto,State.setBuf,eq_comm] using h1
        subst hq
        exact h2 (by simp [State.goto,Pc.reads])
      · by_cases hq : q = p
        · subst hq
          simp [Held,State.goto,State.setBuf,ha,hp,Pc.reads,Ne.symm ha]
        · simp [Held,State.goto,State.setBuf,ha,hq]
  · exact .inl rfl

/-- A process that is in `bread` with the lock comes back from it. -/
theorem Inv.back (h : Inv s) {pc : Pc} (hp : s.pc p = pc) (hpc : pc = .locked b ∨ ∃ r, pc = .io b r)
    (hv : (s.buf b).valid = true) : Inv (s.goto p .user) := by
  have href : pc.refs = 0 := by rcases hpc with rfl | ⟨r,rfl⟩ <;> rfl
  refine h.update (p := p) (b := b) (x := s.buf b) (Function.update_eq_self _ _).symm rfl ?_
    (fun a ha => ?_) (.inl rfl) h.mru (h.dirty b) (h.dev b) (fun _ _ => Iff.rfl)
    (fun _ _ _ => ⟨rfl,rfl⟩) (fun _ => .inl hv)
    (fun a ha => ?_) nofun (fun _ ha => ha) nofun
  · rw [hp,href]
    rfl
  · rw [hp,href]
    exact ⟨Multiset.notMem_zero a,Multiset.notMem_zero a⟩
  · rw [hp]
    rcases hpc with rfl | ⟨r,rfl⟩ <;> simp [Pc.reads,Ne.symm ha]

/-- A process asks the disk for a buffer that it has the lock of. -/
theorem Inv.ask (h : Inv s) {r : Bool} (hl : (s.buf b).lock = some p) (href : (s.pc p).refs = 0)
    (hother : ∀ a ≠ b, ¬(s.pc p).reads a) (hv : (s.buf b).valid = true ∨ r = true) :
    Inv { s.goto p (.io b r) with idequeue := s.idequeue ++ [b] } := by
  refine h.update (p := p) (b := b) (x := s.buf b) (Function.update_eq_self _ _).symm rfl ?_
    (fun a ha => ?_) (.inl rfl) h.mru (h.dirty b) (h.dev b) (fun _ _ => Iff.rfl)
    (fun _ _ _ => ⟨rfl,rfl⟩) (fun _ => hv.imp_right fun hr => .inr (by rw [hr])) hother ?_
    (fun a ha => List.mem_append_left _ ha) fun _ _ => .inl (by simp)
  · rw [href]
    rfl
  · rw [href]
    exact ⟨Multiset.notMem_zero a,Multiset.notMem_zero a⟩
  · rintro a (ha | ⟨r',ha⟩) <;> cases ha
    exact ⟨rfl,hl⟩

theorem breadLocked_serves (h : Inv s) (ht : Shows s t) (hp : s.pc p = .locked b) :
    Serves (breadLocked p b) s t := by
  have hl := h.place p b (.inl hp)
  have hr : (s.pc p).reads b := .inl hp
  have hd := h.dev_of_lock hl
  simp only [Serves,breadLocked,post_bind,post_get]
  split
  · rename_i hv
    exact ⟨h.back hp (.inl rfl) hv,ht.got (h.only hd) hl hr hv hd⟩
  · rename_i hv
    simp only [post_bind,iderw,post_get,holdingsleep,hl]
    rw [if_neg (by simp),if_neg (fun hc => hv hc.1)]
    refine ⟨h.ask hl (by rw [hp]; rfl) (fun a ha => by rw [hp]; simp [Pc.reads,Ne.symm ha]) (.inr rfl),
      t,rfl,ht.quiet (fun _ => ⟨rfl,rfl,rfl,rfl⟩) rfl fun a q => ?_⟩
    exact and_congr_right fun _ => not_congr (update_reads (fun a => by rw [hp]; simp [Pc.reads]) a q)

theorem waited_serves (h : Inv s) (ht : Shows s t) {reading : Bool} (hp : s.pc p = .io b reading) :
    Serves (waited p b reading) s t := by
  have hl := h.place p b (.inr ⟨reading,hp⟩)
  simp only [Serves,waited,post_bind,post_get]
  split
  · rename_i hv
    simp only [post_bind,post_set,post_pure]
    refine ⟨h.back hp (.inr ⟨reading,rfl⟩) hv.1,?_⟩
    cases reading with
    | true => exact ht.got (h.only (h.dev_of_lock hl)) hl (.inr hp) hv.1 (h.dev_of_lock hl)
    | false =>
      refine ⟨t,rfl,ht.quiet (fun _ => ⟨rfl,rfl,rfl,rfl⟩) rfl fun a q => ?_⟩
      exact and_congr_right fun _ =>
        not_congr (update_reads (fun a => by rw [hp]; simp [Pc.reads]) a q)
  · exact .inl rfl

theorem write_serves (h : Inv s) (ht : Shows s t) (hp : s.pc p = .user)
    (hl : (s.buf b).lock = some p) (v : α) :
    Inv (s.setBuf b { s.buf b with data := v, dirty := true }) ∧
      ∃ t', Replies t (some (.put p (s.buf b).block v)) t' ∧
        Shows (s.setBuf b { s.buf b with data := v, dirty := true }) t' := by
  have hnr := not_reads_user hp
  have hv := (h.valid b p hl).resolve_right (hnr b)
  have hd := h.dev_of_lock hl
  have hpc : s.pc = Function.update s.pc p .user := by rw [← hp,Function.update_eq_self]
  refine ⟨h.update (p := p) (b := b) rfl hpc ?_ (fun a ha => ?_) (.inl rfl) h.mru (fun _ => hv)
    (h.dev b) (fun _ _ => Iff.rfl) (fun u hu hlu => ?_) (fun _ => .inl hv) (fun a _ => hnr a) nofun
    (fun _ ha => ha) nofun,
    ht.put (h.only hd) ⟨hl,hnr b⟩ hd rfl ⟨rfl,rfl,rfl,rfl⟩ rfl fun _ _ => Iff.rfl⟩
  · rw [hp]
  · rw [hp]
    exact ⟨Multiset.notMem_zero a,Multiset.notMem_zero a⟩
  · rw [hl] at hlu
    exact absurd (Option.some.inj hlu).symm hu

theorem log_write_serves (h : Inv s) (ht : Shows s t) (hl : (s.buf b).lock = some p) (v : α) :
    Serves (log_write p b v) s t := by
  simp only [Serves,log_write,post_bind]
  exact user_post (fun hp => write_serves h ht hp hl v) (.inl rfl)

theorem bwrite_serves (h : Inv s) (ht : Shows s t) (hl : (s.buf b).lock = some p) (v : α) :
    Serves (bwrite p b v) s t := by
  simp only [Serves,bwrite,post_bind]
  refine user_post (fun hp => ?_) (.inl rfl)
  obtain ⟨h',t',hr,ht'⟩ := write_serves h ht hp hl v
  have hl' : ((s.setBuf b { s.buf b with data := v, dirty := true }).buf b).lock = some p := by
    simp [State.setBuf,hl]
  simp only [post_get]
  rw [if_neg (by simp [holdingsleep,hl])]
  simp only [post_bind,post_set,iderw,post_get]
  rw [if_neg (by simp [holdingsleep,State.setBuf,hl]),if_neg (by simp [State.setBuf])]
  refine ⟨h'.ask hl' (by rw [State.setBuf,hp]; rfl) (fun a _ => not_reads_user hp a) ?_,t',hr,
    ht'.quiet (fun _ => ⟨rfl,rfl,rfl,rfl⟩) rfl fun a q => ?_⟩
  · exact .inl (h'.dirty b (by simp [State.setBuf]))
  · refine and_congr_right fun _ => not_congr (update_reads (fun a => ?_) a q)
    exact iff_of_false (by simp [Pc.reads]) (not_reads_user hp a)

theorem brelse_serves (h : Inv s) (ht : Shows s t) (hl : (s.buf b).lock = some p) :
    Serves (brelse p b) s t := by
  simp only [Serves,brelse,post_bind]
  refine user_post (fun hp => ?_) (.inl rfl)
  have hnr := not_reads_user hp
  simp only [post_get]
  rw [if_neg (by simp [holdingsleep,hl])]
  refine ⟨h.update (p := p) (b := b) rfl rfl ?_ (fun a ha => ?_) (.inl rfl) h.mru (h.dirty b) (h.dev b)
    (fun u hu => ?_) (fun u hu hlu => ?_) nofun (fun a _ => hnr a) nofun (fun _ ha => ha) nofun,
    ht.release (h.only (h.dev_of_lock hl)) ⟨hl,hnr b⟩ (h.dev_of_lock hl) rfl rfl rfl fun a q =>
      update_reads (fun a => iff_of_false (by simp [Pc.reads]) (hnr a)) a q⟩
  · simp [hp,hl,Pc.refs]
  · simpa [hp,Pc.refs] using ha
  · rw [hl]
    exact iff_of_false nofun fun he => hu (Option.some.inj he).symm
  · rw [hl] at hlu
    exact absurd (Option.some.inj hlu).symm hu

theorem released_serves (h : Inv s) (ht : Shows s t) (hp : s.pc p = .releasing b) :
    Serves (released p b) s t := by
  have hnr : ∀ a, ¬(s.pc p).reads a := fun a => by rw [hp]; simp [Pc.reads]
  have hreads : ∀ a q, (Function.update s.pc p .user q).reads a ↔ (s.pc q).reads a :=
    update_reads fun a => iff_of_false (by simp [Pc.reads]) (hnr a)
  have hpos : 0 < (s.buf b).refcnt := h.refs.pos (i := p) (a := b) (by
    rw [← Multiset.count_pos,count_own,hp]
    simp [Pc.refs])
  simp only [Serves,released,post_bind,post_get,post_set,post_pure]
  refine ⟨h.update (p := p) (b := b) (x := { s.buf b with refcnt := (s.buf b).refcnt - 1 }) rfl rfl ?_
    (fun a ha => ?_) (.inl rfl) (fun a => ?_) (h.dirty b) (fun _ => h.dev b hpos.ne')
    (fun _ _ => Iff.rfl) (fun _ _ _ => ⟨rfl,rfl⟩) (fun hl => .inl ((h.valid b p hl).resolve_right (hnr b)))
    (fun a _ => hnr a) nofun (fun _ ha => ha) nofun,t,rfl,ht.quiet (fun a => ?_) rfl fun a q => ?_⟩
  · simp only [hp,Pc.refs,Multiset.count_zero,Multiset.count_singleton_self]
    omega
  · simpa [hp,Pc.refs] using ha
  · dsimp only
    split
    · by_cases ha : a = b
      · rw [ha]
        exact List.mem_cons_self
      · exact List.mem_cons_of_mem b ((List.mem_erase_of_ne ha).mpr (h.mru a))
    · exact h.mru a
  · by_cases ha : a = b
    · subst ha
      simp [State.goto,State.setBuf]
    · simp [State.goto,State.setBuf,ha]
  · refine and_congr (by_cases (fun ha : a = b => ?_) fun ha => ?_) (not_congr (hreads a q))
    · subst ha
      simp [State.goto,State.setBuf]
    · simp [State.goto,State.setBuf,ha]

/-- The disk is done with the first request. -/
theorem Inv.served (h : Inv s) {s' : State α Proc} {x : Buf α Proc}
    (hbuf : s'.buf = Function.update s.buf b x) (hpc : s'.pc = s.pc) (hmru : s'.mru = s.mru)
    (hqueue : s.idequeue = b::s'.idequeue) (hx : x.block = (s.buf b).block ∧ x.lock = (s.buf b).lock ∧
      x.refcnt = (s.buf b).refcnt ∧ x.valid = true ∧ x.dirty = false) : Inv s' := by
  have hself : s'.buf b = x := by rw [hbuf,Function.update_self]
  have hne : ∀ a ≠ b, s'.buf a = s.buf a := fun a ha => by rw [hbuf,Function.update_of_ne ha]
  have hsame : ∀ a, (s'.buf a).block = (s.buf a).block ∧ (s'.buf a).lock = (s.buf a).lock ∧
      (s'.buf a).refcnt = (s.buf a).refcnt := fun a => by
    by_cases ha : a = b
    · rw [ha,hself]
      exact ⟨hx.1,hx.2.1,hx.2.2.1⟩
    · rw [hne a ha]
      exact ⟨rfl,rfl,rfl⟩
  have hvalid : ∀ a, (s.buf a).valid = true → (s'.buf a).valid = true := fun a hv => by
    by_cases ha : a = b
    · rw [ha,hself,hx.2.2.2.1]
    · rw [hne a ha,hv]
  have hown : s'.own = s.own := by
    funext q
    rw [State.own,State.own,hpc]
    simp only [(hsame _).2.1]
  refine ⟨fun a => ?_,fun a a' haa hd => ?_,fun a => hmru ▸ h.mru a,fun a ha => ?_,fun a ha => ?_,
    fun a q hl => ?_,fun q a ha => ?_,fun q a r ha => ?_⟩
  · rw [hown]
    exact (hsame a).2.2.trans (h.refs a)
  · rw [(hsame a).1,(hsame a').1] at haa
    rw [(hsame a).1] at hd
    exact h.uniq a a' haa hd
  · by_cases hab : a = b
    · rw [hab,hself,hx.2.2.2.2] at ha
      cases ha
    · rw [hne a hab] at ha
      exact hvalid a (h.dirty a ha)
  · rw [(hsame a).2.2] at ha
    rw [(hsame a).1]
    exact h.dev a ha
  · rw [(hsame a).2.1] at hl
    rw [hpc]
    exact (h.valid a q hl).imp_left (hvalid a)
  · rw [hpc] at ha
    rw [(hsame a).2.1]
    exact h.place q a ha
  · rw [hpc] at ha
    by_cases hab : a = b
    · rw [hab,hself]
      exact .inr hx.2.2.2
    · rw [hne a hab]
      refine (h.asked q a r ha).imp_left fun hm => ?_
      rw [hqueue] at hm
      exact (List.mem_cons.mp hm).resolve_left hab

theorem ideintr_serves (h : Inv s) (ht : Shows s t) : Serves ideintr s t := by
  simp only [Serves,ideintr,post_bind,post_get]
  cases hq : s.idequeue with
  | nil => exact ⟨h,t,rfl,ht⟩
  | cons b rest =>
    have huniq : ∀ a, (s.buf b).block.1 ≠ 0 → (s.buf a).block = (s.buf b).block → a = b :=
      fun a hd => h.only hd a
    dsimp only
    split
    · rename_i hb
      refine ⟨h.served rfl rfl rfl hq ⟨rfl,rfl,rfl,rfl,rfl⟩,t,rfl,
        ht.served huniq (h.dirty b) rfl ⟨rfl,rfl⟩ ?_ rfl⟩
      rw [if_pos hb]
      exact ⟨rfl,rfl⟩
    · rename_i hb
      refine ⟨h.served rfl rfl rfl hq ⟨rfl,rfl,rfl,rfl,by simpa using hb⟩,t,rfl,
        ht.served huniq (h.dirty b) rfl ⟨rfl,rfl⟩ ?_ rfl⟩
      rw [if_neg hb]
      exact ⟨rfl,rfl⟩

theorem run_serves (h : Inv s) (ht : Shows s t) : Serves (run p) s t := by
  simp only [Serves,run,post_bind,post_get]
  split
  · exact .inl rfl
  · exact acquiresleep_serves h ht ‹_›
  · exact breadLocked_serves h ht ‹_›
  · exact waited_serves h ht ‹_›
  · exact released_serves h ht ‹_›

theorem step_serves (h : Inv s) (ht : Shows s t) {op : Op α Proc} (hu : Used op s) :
    Serves (step op) s t := by
  cases op with
  | bread p blk => exact bread_serves h ht hu
  | log_write p b data => exact log_write_serves h ht hu data
  | bwrite p b data => exact bwrite_serves h ht hu data
  | brelse p b => exact brelse_serves h ht hu
  | run p => exact run_serves h ht
  | ideintr => exact ideintr_serves h ht

end Steps

section Runs

variable [DecidableEq Proc] [Fintype Proc] {s₀ s : State α Proc}
  {ls : List (Op α Proc × Option (Event α Proc))}

theorem Runs.shows (h : Booted s₀) (hr : Runs s₀ ls s) :
    ∃ es t, Trace Step (fresh s₀.disk) es t ∧ (Inv s ∧ Shows s t) ∧
      es.filterMap some = ls.filterMap Prod.snd := by
  refine hr.simulates (I := fun u t => Inv u ∧ Shows u t) ?_ ⟨.start h,.start h⟩
  rintro l u u' t ⟨hI,hS⟩ ⟨hu,hy⟩
  obtain ⟨hI',t',hr,hS'⟩ := (step_serves hI hS hu).of_ok hy
  cases he : l.2 with
  | none =>
    rw [he] at hr
    exact ⟨[],t,.nil,⟨hI',hr ▸ hS'⟩,rfl⟩
  | some e =>
    rw [he] at hr
    exact ⟨[e],t',.single hr,⟨hI',hS'⟩,rfl⟩

/-- An empty disk and the buffers after `binit`. -/
def boot : State ℕ Bool where
  buf _ := ⟨(0,0),false,false,0,none,0⟩
  mru := (List.finRange NBUF).reverse
  idequeue := []
  disk _ := 0
  pc _ := .user

theorem booted_boot : Booted boot := ⟨fun _ => ⟨rfl,rfl,rfl,rfl,rfl⟩,rfl,rfl,fun _ => rfl⟩

/-- A process reads a block from the disk, writes to it and gives it back; another one gets what it
wrote. -/
def written (b : Slot) : List (Op ℕ Bool × Option (Event ℕ Bool)) :=
  [(.bread true (1,5),none),(.run true,none),(.bread false (1,5),none),(.run true,none),
    (.ideintr,none),(.run true,some (.got true (1,5) 0)),(.log_write true b 7,some (.put true (1,5) 7)),
    (.brelse true b,some (.release true (1,5))),(.run false,none),
    (.run false,some (.got false (1,5) 7))]

/-- What `bread` returns is what was written to the block last, or what the disk had at first. -/
theorem bread_eq_last (h : Booted s₀) {op : Op α Proc} {p : Proc} {blk : Block} {v : α}
    (hr : Runs s₀ (ls ++ [(op,some (.got p blk v))]) s) :
    v = last s₀.disk blk (ls.filterMap Prod.snd) := by
  obtain ⟨es,t,htr,-,hes⟩ := Runs.shows h hr
  rw [List.filterMap_some,List.filterMap_append] at hes
  exact got_eq_last (hes ▸ htr)

end Runs

end ResumePointers.Fs.Bcache

import ResumePointers.Xv6.Console

/-! The ring of the console is an editor of lines: the readers get what the screen shows, in its order,
and one that sleeps has nothing to read. -/
namespace ResumePointers.Xv6.Console

open LineEditor (Rules Key Event)

def rules : Rules Byte := ⟨newline,C 'D',INPUT_BUF⟩

/-- What a byte means when it is typed. -/
def key (c : Byte) : Option (Key Byte) :=
  if c = C 'P' then none
  else if c = C 'U' then some .kill
  else if c = C 'H' ∨ c = 0x7f then some .erase
  else if c = 0 then none
  else some (.char (if c = 13 then newline else c))

variable {Proc : Type}

/-- What is seen of a step. -/
def view : Op Proc × Out → Option (Event Byte)
  | (.consoleintr cs,.shown out) => some (.typed (cs.filterMap key) out)
  | (_,.read n target got eof back) => some (.read n target got eof back)
  | _ => none

section Indices

variable {r w e : BitVec 32} {a b : ℕ}

theorem gap (hr : (w - r).toNat = a) (hl : (e - w).toNat = b) (hab : a + b ≤ INPUT_BUF) :
    (e - r).toNat = a + b := by
  simp only [INPUT_BUF] at hab
  bv_omega

theorem gap_succ (h : (e - r).toNat = a) (ha : a < INPUT_BUF) : (e + 1 - r).toNat = a + 1 := by
  simp only [INPUT_BUF] at ha
  bv_omega

theorem gap_pred (h : (e - w).toNat = a + 1) : (e - 1 - w).toNat = a := by bv_omega

theorem gap_next (h : (w - r).toNat = a + 1) : (w - (r + 1)).toNat = a := by bv_omega

theorem eq_iff_gap : r = w ↔ (w - r).toNat = 0 := by bv_omega

theorem full_iff : e = r + BitVec.ofNat 32 INPUT_BUF ↔ (e - r).toNat = INPUT_BUF := by
  simp only [INPUT_BUF]
  bv_omega

/-- The indices wrap around at a multiple of the size. -/
theorem slot_eq (h : (e - r).toNat = a) :
    e.toNat % INPUT_BUF = (r.toNat % INPUT_BUF + a) % INPUT_BUF := by
  subst h
  simp only [INPUT_BUF,BitVec.toNat_sub]
  omega

end Indices

/-- The bytes in the ring, the oldest first. -/
def State.contents (s : State Proc) : List Byte :=
  (List.range (s.e - s.r).toNat).map fun i => s.buf.getD ((s.r.toNat + i) % INPUT_BUF) 0

/-- The ring holds what can be read and the line. -/
structure Edits (s : State Proc) (t : LineEditor Byte) : Prop where
  size : s.buf.length = INPUT_BUF
  window : Window s.buf (s.r.toNat % INPUT_BUF) (t.ready ++ t.line)
  ready : (s.w - s.r).toNat = t.ready.length
  line : (s.e - s.w).toNat = t.line.length
  opened : t.Open rules
  room : ∀ p n target, s.pc p = .reading n target ∨ s.pc p = .asleep n target → n ≤ target
  asleep : ∀ p n target, s.pc p = .asleep n target → t.ready = [] ∧ s.killed p = false

theorem wakeup_ne_asleep (pc : Pc) (n target : ℕ) : pc.wakeup ≠ .asleep n target := by
  cases pc <;> simp [Pc.wakeup]

theorem reading_of_wakeup {pc : Pc} {n target : ℕ} (h : pc.wakeup = .reading n target) :
    pc = .reading n target ∨ pc = .asleep n target := by
  cases pc <;> simp_all [Pc.wakeup]

namespace Edits

variable {s : State Proc} {t : LineEditor Byte}

theorem start (h : Booted s) : Edits s LineEditor.empty where
  size := h.buf
  window := .nil (by rw [h.buf]; exact Nat.mod_lt _ (by decide))
  ready := by simp [h.r,h.w,LineEditor.empty]
  line := by simp [h.w,h.e,LineEditor.empty]
  opened := ⟨nofun,Nat.zero_le _,fun _ => rfl⟩
  room p n target hp := by simp [h.pc p] at hp
  asleep p n target hp := by simp [h.pc p] at hp

theorem typed (h : Edits s t) : (s.e - s.r).toNat = t.ready.length + t.line.length :=
  gap h.ready h.line h.opened.size

/-- The byte before `input.e` is the last of the line. -/
theorem last (h : Edits s t) {l : List Byte} {a : Byte} (hl : t.line = l ++ [a]) :
    s.buf.getD ((s.e - 1).toNat % INPUT_BUF) 0 = a := by
  have hw := h.window
  have hgap := h.typed
  rw [hl,← List.append_assoc] at hw
  rw [hl,List.length_append,List.length_singleton,← Nat.add_assoc] at hgap
  have hlast := hw.last_eq
  rw [h.size,List.length_append,← slot_eq (gap_pred hgap)] at hlast
  rw [List.getD_eq_getElem?_getD,hlast]
  rfl

theorem erase (h : Edits s t) {l : List Byte} {a : Byte} (hl : t.line = l ++ [a]) :
    Edits { s with e := s.e - 1 } { t with line := l } := by
  have hlen : (s.e - s.w).toNat = l.length + 1 := by rw [h.line,hl]; simp
  refine ⟨h.size,?_,h.ready,gap_pred hlen,?_,h.room,h.asleep⟩
  · have hw := h.window
    rw [hl,← List.append_assoc] at hw
    exact hw.of_append
  · have := h.opened.type .erase
    simpa [LineEditor.type,hl] using this

theorem killLine (h : Edits s t) : Total (killLine t.line.length) s fun out s' =>
    out = List.replicate t.line.length none ∧ Edits s' { t with line := [] } := by
  obtain ⟨ready,line⟩ := t
  induction line using List.reverseRecOn generalizing s with
  | nil => exact ⟨rfl,h⟩
  | append_singleton l a ih =>
    have hne : s.e ≠ s.w := fun he => by
      have := h.line
      rw [he] at this
      simp at this
    have ha := (h.opened.line a (by simp)).1
    rw [List.length_append,List.length_singleton]
    simp only [Total,Console.killLine,post_bind,post_get]
    rw [if_pos ⟨hne,by rw [h.last rfl]; exact ha⟩]
    simp only [post_bind,post_set,post_pure]
    exact (ih (h.erase rfl)).imp fun out s' ⟨hout,hs'⟩ => ⟨by rw [hout]; rfl,hs'⟩

/-- A byte comes behind the line. -/
theorem push (h : Edits s t) (hlt : t.ready.length + t.line.length < INPUT_BUF) (c : Byte) :
    Window (s.buf.set (s.e.toNat % INPUT_BUF) c) (s.r.toNat % INPUT_BUF)
      (t.ready ++ (t.line ++ [c])) := by
  have hpush := h.window.push (by rw [h.size,List.length_append]; exact hlt) c
  rwa [h.size,List.length_append,← slot_eq h.typed,List.append_assoc] at hpush

theorem keep (h : Edits s t) {c : Byte} (hc : c ≠ 0) :
    Total (keep c) s fun out s' =>
      out = t.echo rules (.char (if c = 13 then newline else c)) ∧
        Edits s' (t.type rules (.char (if c = 13 then newline else c))) := by
  simp only [Total,Console.keep,post_bind,post_get,LineEditor.echo,LineEditor.type,h.typed]
  generalize hx : (if c = 13 then newline else c) = x
  by_cases hlt : t.ready.length + t.line.length < INPUT_BUF
  · rw [if_pos ⟨hc,hlt⟩]
    have hopened := h.opened.type (.char x)
    have hgap := gap_succ h.typed hlt
    have hends : (x = newline ∨ x = C 'D' ∨ s.e + 1 = s.r + BitVec.ofNat 32 INPUT_BUF) ↔
        (x = rules.newline ∨ x = rules.eof ∨ t.ready.length + t.line.length + 1 = rules.size) := by
      rw [full_iff,hgap]
      rfl
    simp only [LineEditor.type] at hopened
    rw [if_pos (show _ < rules.size from hlt)] at hopened ⊢
    rw [if_pos (show _ < rules.size from hlt)]
    by_cases hend : x = newline ∨ x = C 'D' ∨ s.e + 1 = s.r + BitVec.ofNat 32 INPUT_BUF
    · rw [if_pos (hends.mp hend)] at hopened ⊢
      simp only [if_pos hend,post_bind,post_set,post_pure]
      refine ⟨trivial,by simpa using h.size,by simpa using h.push hlt x,?_,by simp,hopened,?_,?_⟩
      · rw [hgap]
        simp [Nat.add_assoc]
      · intro p n target hp
        refine h.room p n target (hp.elim reading_of_wakeup fun hp => ?_)
        exact (wakeup_ne_asleep _ _ _ hp).elim
      · exact fun p n target hp => (wakeup_ne_asleep _ _ _ hp).elim
    · rw [if_neg (hends.not.mp hend)] at hopened ⊢
      simp only [if_neg hend,post_bind,post_set,post_pure]
      refine ⟨trivial,by simpa using h.size,by simpa using h.push hlt x,h.ready,?_,hopened,h.room,
        h.asleep⟩
      have hline := h.opened.size
      rw [List.length_append,List.length_singleton]
      exact gap_succ h.line (by simp only [rules] at hline; omega)
  · rw [if_neg (fun hh => hlt hh.2),if_neg (show ¬_ < rules.size from hlt),
      if_neg (show ¬_ < rules.size from hlt)]
    exact ⟨rfl,h⟩

theorem intr (h : Edits s t) (c : Byte) : Total (intr c) s fun out s' =>
    out = (t.typeAll rules (key c).toList).2 ∧ Edits s' (t.typeAll rules (key c).toList).1 := by
  unfold Console.intr key
  split
  · exact ⟨rfl,h⟩
  split
  · simp only [Total,post_bind,post_get,h.line]
    refine h.killLine.imp fun out s' ho => ⟨?_,ho.2⟩
    simpa [LineEditor.typeAll,LineEditor.echo] using ho.1
  split
  · simp only [Total,post_bind,post_get]
    rcases List.eq_nil_or_concat t.line with hl | ⟨l,a,hl⟩
    · have he : s.w = s.e := eq_iff_gap.mpr (by rw [h.line,hl]; rfl)
      rw [if_neg (fun hne => hne he.symm)]
      refine ⟨by simp [LineEditor.typeAll,LineEditor.echo,hl],?_⟩
      obtain ⟨ready,line⟩ := t
      subst hl
      exact h
    · rw [List.concat_eq_append] at hl
      have hne : s.e ≠ s.w := fun he => by
        have := h.line
        rw [he,hl] at this
        simp at this
      rw [if_pos hne]
      simp only [post_bind,post_set,post_pure]
      refine ⟨by simp [LineEditor.typeAll,LineEditor.echo,hl],?_⟩
      have := h.erase hl
      simpa [LineEditor.typeAll,LineEditor.type,hl] using this
  · by_cases hc : c = 0
    · rw [if_pos hc]
      simp only [Total,Console.keep,post_bind,post_get]
      rw [if_neg (fun hh => hh.1 hc)]
      exact ⟨rfl,h⟩
    · rw [if_neg hc]
      refine (h.keep hc).imp fun out s' ho => ⟨?_,ho.2⟩
      simpa [LineEditor.typeAll] using ho.1

theorem consoleintr (h : Edits s t) (cs : List Byte) : Total (consoleintr cs) s fun out s' =>
    out = (t.typeAll rules (cs.filterMap key)).2 ∧ Edits s' (t.typeAll rules (cs.filterMap key)).1 := by
  induction cs generalizing s t with
  | nil => exact ⟨rfl,h⟩
  | cons c cs ih =>
    simp only [Total,Console.consoleintr,post_bind,post_pure]
    refine (h.intr c).imp fun out s₁ ⟨hout,hs₁⟩ => (ih hs₁).imp fun rest s₂ ⟨hrest,hs₂⟩ => ?_
    rw [List.filterMap_cons]
    cases hk : key c with
    | none =>
      rw [hk] at hout hrest hs₂
      exact ⟨by rw [hout,hrest]; rfl,hs₂⟩
    | some k =>
      rw [hk] at hout hrest hs₂
      refine ⟨?_,hs₂⟩
      rw [hout,hrest]
      simp [LineEditor.typeAll]

/-- A reader takes a byte. -/
theorem pop (h : Edits s t) {a : Byte} {q : List Byte} (hq : t.ready = a::q) :
    s.buf.getD (s.r.toNat % INPUT_BUF) 0 = a ∧
      Edits { s with r := s.r + 1 } { t with ready := q } := by
  have hw := h.window
  rw [hq,List.cons_append] at hw
  have hlen : (s.w - s.r).toNat = q.length + 1 := by rw [h.ready,hq]; rfl
  refine ⟨by rw [List.getD_eq_getElem?_getD,hw.head_eq]; rfl,h.size,?_,gap_next hlen,h.line,?_,h.room,?_⟩
  · have hpop := hw.pop
    rwa [h.size,← slot_eq (show (s.r + 1 - s.r).toNat = 1 by bv_omega)] at hpop
  · have hsize := h.opened.size
    rw [hq,List.length_cons] at hsize
    refine ⟨h.opened.line,by dsimp only; omega,fun hf => ?_⟩
    dsimp only at hf
    omega
  · intro p n target hp
    have := (h.asleep p n target hp).1
    rw [hq] at this
    cases this

variable [DecidableEq Proc] {p : Proc} {n m target : ℕ} {got : List Byte}

theorem goto (h : Edits s t) {pc : Pc}
    (hroom : ∀ n target, pc = .reading n target ∨ pc = .asleep n target → n ≤ target)
    (hasleep : ∀ n target, pc = .asleep n target → t.ready = [] ∧ s.killed p = false) :
    Edits { s with pc := Function.update s.pc p pc } t := by
  refine ⟨h.size,h.window,h.ready,h.line,h.opened,fun u n target hu => ?_,fun u n target hu => ?_⟩
  · dsimp only at hu
    by_cases hup : u = p
    · rw [hup,Function.update_self] at hu
      exact hroom n target hu
    · rw [Function.update_of_ne hup] at hu
      exact h.room u n target hu
  · dsimp only at hu
    by_cases hup : u = p
    · subst hup
      rw [Function.update_self] at hu
      exact hasleep n target hu
    · rw [Function.update_of_ne hup] at hu
      exact h.asleep u n target hu

theorem goto_user (h : Edits s t) : Edits { s with pc := Function.update s.pc p .user } t :=
  h.goto (by simp) (by simp)

/-- What a reader gets in the end is what it has, and what it reads from now on. -/
theorem readLoop (h : Edits s t) (hn : n ≤ target) :
    Total (readLoop p m target n got) s fun out s' =>
      ∃ r back, LineEditor.read rules n (n = target) t.ready = r ∧
        out = .read m target (got ++ r.got) r.eof back ∧
        (if r.done then back = .returns (target - (n - r.got.length))
          else back = .waits ∨ back = .fails) ∧
        Edits s' { t with ready := r.rest } := by
  induction n generalizing s t got with
  | zero => exact ⟨_,.returns target,rfl,by simp [LineEditor.read],by simp [LineEditor.read],h.goto_user⟩
  | succ n ih =>
    simp only [Total,Console.readLoop,Console.goto,post_bind,post_get]
    have hempty : s.r = s.w ↔ t.ready = [] := by
      rw [eq_iff_gap,h.ready,List.length_eq_zero_iff]
    by_cases hrw : s.r = s.w
    · have hready := hempty.mp hrw
      rw [if_pos hrw,hready]
      have ht : t = { t with ready := [] } := by rw [← hready]
      split
      · simp only [post_bind,post_modify,post_pure]
        exact ⟨_,_,rfl,by simp [LineEditor.read],.inr rfl,ht ▸ h.goto_user⟩
      · rename_i hk
        simp only [post_bind,post_modify,post_pure]
        refine ⟨_,_,rfl,by simp [LineEditor.read],.inl rfl,ht ▸ h.goto ?_ ?_⟩
        · rintro n' target' (hp | hp) <;> cases hp
          exact hn
        · exact fun _ _ _ => ⟨hready,by simpa using hk⟩
    · rw [if_neg hrw]
      obtain ⟨a,q,hq⟩ := List.exists_cons_of_ne_nil (hempty.not.mp hrw)
      obtain ⟨ha,hpop⟩ := h.pop hq
      simp only [post_bind,post_set,ha,hq,LineEditor.read]
      by_cases hd : a = C 'D'
      · rw [if_pos hd,if_pos (show a = rules.eof from hd)]
        by_cases hlt : n + 1 < target
        · rw [if_pos hlt,if_neg (show ¬decide (n + 1 = target) = true by simp; omega)]
          simp only [post_bind,post_modify,post_pure]
          refine ⟨_,.returns (target - (n + 1)),rfl,by simp [hlt],by simp,?_⟩
          have hback : s.r + 1 - 1 = s.r := BitVec.add_sub_cancel _ _
          rw [hback,← hq]
          exact h.goto_user
        · rw [if_neg hlt,if_pos (show decide (n + 1 = target) = true by simp; omega)]
          simp only [post_bind,post_pure,post_modify]
          exact ⟨_,.returns (target - (n + 1)),rfl,by simp [hlt],by simp,hpop.goto_user⟩
      · rw [if_neg hd,if_neg (show ¬a = rules.eof from hd)]
        by_cases hnl : a = newline
        · rw [if_pos hnl,if_pos (show a = rules.newline from hnl)]
          simp only [post_bind,post_modify,post_pure]
          exact ⟨_,_,rfl,rfl,by simp,hpop.goto_user⟩
        · rw [if_neg hnl,if_neg (show ¬a = rules.newline from hnl)]
          refine (ih hpop (by omega)).imp ?_
          rintro out s' ⟨r,back,hr,hout,hback,hs'⟩
          rw [show decide (n = target) = false by simp; omega] at hr
          refine ⟨_,back,rfl,?_,?_,?_⟩
          · rw [hr,hout]
            simp
          · rw [hr]
            simpa using hback
          · rw [hr]
            exact hs'

theorem run (h : Edits s t) : Partial (run p) s fun out s' =>
    ∃ e t', view (.run p,out) = some e ∧ LineEditor.Step rules e t t' ∧ Edits s' t' := by
  simp only [Partial,Console.run,post_bind,post_get]
  split
  · rename_i n target hp
    refine (h.readLoop (h.room p n target (.inl hp))).post fun out s' ⟨r,back,hr,hout,hback,hs'⟩ => ?_
    rw [List.nil_append] at hout
    cases hd : r.done with
    | true =>
      simp only [hd,if_true] at hback
      exact ⟨_,_,by rw [hout,view,hback],.returns t n target r hr hd,hs'⟩
    | false =>
      simp only [hd] at hback
      exact ⟨_,_,by rw [hout,view],.waits t n target r hr hd back (by simpa using hback),hs'⟩
  · trivial

theorem kill (h : Edits s t) : Total (kill p) s fun out s' => out = .quiet ∧ Edits s' t := by
  simp only [Total,Console.kill,post_bind,post_modify,post_pure]
  have hpc : Edits { s with pc := Function.update s.pc p (s.pc p).wakeup } t := by
    refine h.goto (fun n target hp => ?_) fun n target hp => (wakeup_ne_asleep _ _ _ hp).elim
    exact h.room p n target (hp.elim reading_of_wakeup fun hp => (wakeup_ne_asleep _ _ _ hp).elim)
  refine ⟨trivial,hpc.size,hpc.window,hpc.ready,hpc.line,hpc.opened,hpc.room,fun u n target hu => ?_⟩
  have hup : u ≠ p := by
    rintro rfl
    exact wakeup_ne_asleep _ _ _ ((Function.update_self u _ s.pc).symm.trans hu)
  exact (hpc.asleep u n target hu).imp id fun hk => (Function.update_of_ne hup _ _).trans hk

theorem consoleread (h : Edits s t) : Partial (consoleread p n) s fun out s' =>
    out = .quiet ∧ Edits s' t := by
  simp only [Partial,Console.consoleread,Console.goto,post_bind,post_get]
  split
  · simp only [post_bind,post_modify,post_pure]
    refine ⟨trivial,h.goto ?_ nofun⟩
    rintro _ _ (hp | hp) <;> cases hp
    exact Nat.le_refl _
  · trivial

/-- What a step shows is a step of the editor. -/
theorem step (h : Edits s t) (op : Op Proc) : Partial (step op) s fun out s' =>
    ∃ es t', Trace (LineEditor.Step rules) t es t' ∧ Edits s' t' ∧ es = (view (op,out)).toList := by
  cases op with
  | consoleintr cs =>
    simp only [Partial,Console.step,post_map]
    refine (h.consoleintr cs).post fun out s' ⟨hout,hs'⟩ => ⟨_,_,.single (.typed t _),hs',?_⟩
    rw [hout]
    rfl
  | consoleread p n => exact h.consoleread.imp fun out s' ⟨hout,hs'⟩ => ⟨[],t,.nil,hs',by rw [hout]; rfl⟩
  | run p => exact h.run.imp fun out s' ⟨e,t',he,hstep,hs'⟩ => ⟨[e],t',.single hstep,hs',by rw [he]; rfl⟩
  | kill p => exact h.kill.post fun out s' ⟨hout,hs'⟩ => ⟨[],t,.nil,hs',by rw [hout]; rfl⟩

end Edits

section Runs

variable [DecidableEq Proc] {s₀ s : State Proc} {ls : List (Op Proc × Out)}

/-- A console with zeros in its ring. -/
def boot : State Bool := ⟨List.replicate INPUT_BUF 0,0,0,0,fun _ => false,fun _ => .user⟩

theorem booted_boot : Booted boot := ⟨List.length_replicate,rfl,rfl,rfl,fun _ => rfl⟩

omit [DecidableEq Proc] in
theorem Edits.contents {t : LineEditor Byte} (h : Edits s t) : s.contents = t.ready ++ t.line := by
  have hmap := h.window.map_range 0
  simp only [h.size,Nat.mod_add_mod] at hmap
  rwa [State.contents,h.typed,← List.length_append]

end Runs

end ResumePointers.Xv6.Console

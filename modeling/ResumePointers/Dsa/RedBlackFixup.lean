import ResumePointers.Dsa.RedBlackSpec

/-! `fixup` of `dsa/rb`: the loop climbs to a place that is the root or hangs below a black node, and
the keys stay in their order. -/
namespace ResumePointers.Dsa.RedBlack

open ResumePointers.RedBlack

variable {s : Memory} {fs : List (Frame ℕ ℤ)} {f g : Frame ℕ ℤ} {t u l r : Tree ℕ ℤ} {d e : Side}
  {a fuel n : ℕ} {c : Color} {x : ℤ} {p : Ptr} {extra rest : Multiset (ℕ × Node)}

/-- The subtree beside the place is a place, too. -/
theorem at_sib : At s (f::fs) t extra ↔
    At s (⟨f.side.other,f.addr,f.color,f.key,t⟩::fs) f.sib extra := by
  rw [at_cons,at_cons,Frame.fill,Frame.fill,Tree.branch_other]

/-- A node is not the root of a subtree beside it. -/
theorem ptr_ne {n : Node} {mem : ℕ → Option Node} (h : Cells mem ({(a,n)} + (cells t p + rest))) :
    ptr t ≠ some a := by
  cases t with
  | leaf => exact nofun
  | node l b c x r =>
    intro he
    refine h.ne (b := b) (w := mkNode .left x c p (ptr l) (ptr r)) ?_ (Option.some.inj he).symm
    simp [cells]

theorem At.sib_ne (h : At s (f::fs) (.branch d l a c x r) extra) : ptr f.sib ≠ some a := by
  have hm := h.mem
  rw [cells_branch,ptr_branch,pathCells,pathPtr] at hm
  have hparts : Cells s.node ({(a,mkNode d x c (some f.addr) (ptr l) (ptr r))} +
      (cells f.sib (some f.addr) +
        ({(f.addr,mkNode f.side f.key f.color (pathPtr fs) (some a) (ptr f.sib))} +
          (pathCells fs (some f.addr) + cells l (some a) + cells r (some a) + extra)))) := by
    convert hm using 1
    abel
  exact ptr_ne hparts

theorem rootPtr_mem (f : Frame ℕ ℤ) (fs : List (Frame ℕ ℤ)) (p : Ptr) :
    ∃ b n, rootPtr (f::fs) p = some b ∧ (b,n) ∈ pathCells (f::fs) p := by
  induction fs generalizing f p with
  | nil =>
    exact ⟨f.addr,mkNode f.side f.key f.color none p (ptr f.sib),rfl,by simp [pathCells,pathPtr]⟩
  | cons g fs ih =>
    obtain ⟨b,n,hb,hn⟩ := ih g (some f.addr)
    refine ⟨b,n,hb,?_⟩
    rw [pathCells]
    simp [hn]

/-- A node that has a parent is not the root. -/
theorem At.root_ne (h : At s (f::fs) (.branch d l a c x r) extra) : some a ≠ s.root := by
  obtain ⟨b,n,hb,hn⟩ := rootPtr_mem f fs (some a)
  rw [h.root,ptr_branch,hb]
  have hm := h.mem
  rw [cells_branch,ptr_branch] at hm
  have hparts : Cells s.node ({(a,mkNode d x c (pathPtr (f::fs)) (ptr l) (ptr r))} +
      (pathCells (f::fs) (some a) + (cells l (some a) + cells r (some a) + extra))) := by
    convert hm using 1
    abel
  intro he
  exact hparts.ne (Multiset.mem_add.mpr (.inl hn)) (Option.some.inj he)

theorem isRed_at (h : At s fs t extra) : Total (isRed (ptr t)) s fun b u =>
    u = s ∧ (b = true ↔ t.color = .red) := by
  cases t with
  | leaf => exact ⟨rfl,iff_of_false nofun nofun⟩
  | node l a c x r =>
    have hnode : s.node a = some (mkNode .left x c (pathPtr fs) (ptr l) (ptr r)) :=
      At.node (d := .left) h
    refine (post_bind ..).mpr ((deref_post hnode).mpr ⟨rfl,?_⟩)
    rw [mkNode_color]
    exact decide_eq_true_iff

theorem blacken_at (h : At s fs t extra) (hne : t ≠ .leaf) :
    Total (setColor (ptr t) .black) s fun _ u => At u fs t.blacken extra := by
  obtain ⟨l,a,c,x,r,rfl⟩ := Tree.exists_branch .left hne
  rw [ptr_branch,Tree.blacken_branch]
  exact setColor_at h _

/-- The place, after the grandparent has been rotated. -/
theorem fixupOuter_at (h : At s (f::g::fs) (.branch e l a c x r) extra) (hf : f.side = d)
    (hg : g.side = d) : Total (fixupOuter d (some a)) s fun _ u =>
      At u (⟨d,f.addr,.black,f.key,.branch d f.sib g.addr .red g.key g.sib⟩::fs)
        (.branch e l a c x r) extra := by
  rw [fixupOuter]
  refine (post_bind ..).mpr ((deref_post h.node).mpr ?_)
  rw [mkNode_parent,pathPtr]
  refine (post_bind ..).mpr ((setColor_at (at_cons.mp h) _).imp fun _ s₁ h₁ => ?_)
  refine (post_bind ..).mpr ((deref_post h₁.node).mpr ?_)
  rw [mkNode_parent,pathPtr]
  refine (post_bind ..).mpr ((setColor_at (at_cons.mp h₁) _).imp fun _ s₂ h₂ => ?_)
  rw [hf,hg] at h₂
  exact (rotate_at h₂).imp fun _ u hu => at_cons.mpr hu

/-- The place, after the parent has been rotated if it was not on the side of its parent. -/
theorem fixupInner_at (h : At s (f::g::fs) t extra) (hu : Unfinished (f::g::fs) t n)
    (hf : f.color = .red) (d : Side) : Total (fixupInner d (ptr t)) s fun loc u =>
      ∃ f' t', ptr t' = loc ∧ f'.side = d ∧ f'.color = .red ∧ At u (f'::g::fs) t' extra ∧
        Unfinished (f'::g::fs) t' n ∧ (f'.fill t').keys = (f.fill t).keys := by
  have hne : t ≠ .leaf := by
    rintro rfl
    cases hu.red
  obtain ⟨l,a,c,x,r,rfl⟩ := Tree.exists_branch d.other hne
  rw [ptr_branch,fixupInner]
  refine (post_bind ..).mpr ((deref_post h.node).mpr ?_)
  rw [mkNode_parent,pathPtr]
  refine (post_bind ..).mpr ((deref_post h.parent).mpr ?_)
  rw [ptr_branch]
  rcases Side.eq_or d f.side with hd | hd
  · rw [hd,mkNode_child_other,if_neg (Ne.symm h.sib_ne)]
    exact ⟨f,_,ptr_branch ..,hd,hf,h,hu,rfl⟩
  · have hat := at_cons.mp h
    rw [Frame.fill,hd] at hat
    rw [hd,mkNode_child,if_pos rfl]
    refine (post_bind ..).mpr ((rotate_at hat).imp fun _ u hrot => ?_)
    rw [Tree.branch_other d] at hrot
    refine ⟨⟨d,a,c,x,l⟩,_,ptr_branch ..,rfl,?_,at_cons.mpr hrot,hu.inner hf d,?_⟩
    · exact (Tree.color_branch ..).symm.trans hu.red
    · rw [Frame.fill,Frame.fill,hd,← Tree.branch_other d]
      exact (Tree.keys_rotate ..).symm

/-- One round: the place goes two frames up, or it is below a black frame then. -/
theorem fixupSide_at (h : At s (f::g::fs) t extra) (hu : Unfinished (f::g::fs) t n)
    (hf : f.color = .red) (hg : g.side = d) : Total (fixupSide d (ptr t)) s fun loc u =>
      ∃ fs' t' m, ptr t' = loc ∧ (fs' = fs ∨ topColor fs' = .black) ∧ At u fs' t' extra ∧
        Unfinished fs' t' m ∧ (plug fs' t').keys = (plug (f::g::fs) t).keys := by
  have hne : t ≠ .leaf := by
    rintro rfl
    cases hu.red
  have hinner := fixupInner_at h hu hf d
  obtain ⟨l,a,c,x,r,rfl⟩ := Tree.exists_branch d hne
  rw [ptr_branch] at hinner ⊢
  rw [fixupSide]
  refine (post_bind ..).mpr ((deref_post h.node).mpr ?_)
  rw [mkNode_parent,pathPtr]
  refine (post_bind ..).mpr ((deref_post h.parent).mpr ?_)
  rw [mkNode_parent,pathPtr]
  refine (post_bind ..).mpr ((deref_post (at_cons.mp h).parent).mpr ?_)
  rw [hg,mkNode_child_other]
  have huncle := isRed_at (at_sib.mp (at_cons.mp h))
  refine (post_bind ..).mpr (huncle.imp fun b _ hb => ?_)
  obtain ⟨rfl,hb⟩ := hb
  by_cases hred : b = true
  · rw [if_pos hred]
    have hcolor : g.sib.color = .red := hb.mp hred
    have hsib : g.sib ≠ .leaf := by
      intro hs
      rw [hs] at hcolor
      cases hcolor
    refine (post_bind ..).mpr ((setColor_at (at_cons.mp h) _).imp fun _ s₁ h₁ => ?_)
    refine (post_bind ..).mpr ((blacken_at (at_sib.mp h₁) hsib).imp fun _ s₂ h₂ => ?_)
    have hback := at_sib.mp h₂
    rw [Side.other_other] at hback
    refine (post_bind ..).mpr ((setColor_at (at_cons.mp hback) _).imp fun _ u h₃ => ?_)
    refine ⟨fs,_,n + 1,ptr_branch ..,.inl rfl,h₃,hu.recolor hf hcolor,?_⟩
    refine keys_plug_congr fs (Tree.keys_congr g.side ?_ (Tree.keys_blacken _))
    exact Tree.keys_congr f.side rfl rfl
  · rw [if_neg hred]
    have hblack : g.sib.color = .black := by
      cases hc : g.sib.color with
      | black => rfl
      | red => exact (hred (hb.mpr hc)).elim
    refine (post_bind ..).mpr (hinner.imp fun loc s₁ h₁ => ?_)
    obtain ⟨f',t',rfl,hside,hcolor,hat,hu',hkeys⟩ := h₁
    have hne' : t' ≠ .leaf := by
      rintro rfl
      cases hu'.red
    obtain ⟨l',a',c',x',r',rfl⟩ := Tree.exists_branch d hne'
    rw [ptr_branch]
    refine (post_bind ..).mpr ((fixupOuter_at hat hside hg).imp fun _ u hout => ?_)
    refine ⟨_,_,n,ptr_branch ..,.inr rfl,hout,hu'.rotate hcolor hblack d,?_⟩
    refine keys_plug_congr fs (Eq.trans (b := (g.fill (f'.fill (.branch d l' a' c' x' r'))).keys)
      ?_ (Tree.keys_congr g.side hkeys rfl))
    rw [Frame.fill,Frame.fill,Frame.fill,hside,hg]
    exact (Tree.keys_rotate ..).symm

/-- The loop ends, at a place below a black frame. A round with a red frame above the place needs as
much fuel as there are frames. -/
theorem fixupLoop_at (h : At s fs t extra) (hu : Unfinished fs t n) (hpos : 0 < fuel)
    (hfuel : topColor fs = .red → fs.length + 2 ≤ fuel) :
    Total (fixupLoop fuel (ptr t)) s fun _ u => ∃ fs' t' m, At u fs' t' extra ∧
      Unfinished fs' t' m ∧ topColor fs' = .black ∧ (plug fs' t').keys = (plug fs t).keys := by
  induction fuel generalizing s fs t n with
  | zero => exact (Nat.lt_irrefl 0 hpos).elim
  | succ fuel ih =>
    have hne : t ≠ .leaf := by
      rintro rfl
      cases hu.red
    obtain ⟨l,a,c,x,r,rfl⟩ := Tree.exists_branch .left hne
    rw [fixupLoop,ptr_branch]
    refine (post_bind ..).mpr ((post_get ..).mpr ?_)
    cases fs with
    | nil =>
      rw [h.root,rootPtr,ptr_branch,if_pos rfl]
      exact ⟨[],_,n,h,hu,rfl,rfl⟩
    | cons f fs =>
      rw [if_neg h.root_ne]
      refine (post_bind ..).mpr ((deref_post h.node).mpr ?_)
      rw [mkNode_parent,pathPtr]
      refine (post_bind ..).mpr ((deref_post h.parent).mpr ?_)
      rw [mkNode_color]
      by_cases hf : f.color = .red
      · obtain ⟨g,fs,rfl,-⟩ := hu.exists_black hf
        rw [if_pos hf]
        refine (post_bind ..).mpr ((deref_post h.parent).mpr ?_)
        rw [mkNode_parent,pathPtr]
        refine (post_bind ..).mpr ((deref_post (at_cons.mp h).parent).mpr ?_)
        have hround (d : Side) (hg : g.side = d) : Total (do fixupLoop fuel (← fixupSide d (some a)))
            s fun _ u => ∃ fs' t' m, At u fs' t' extra ∧ Unfinished fs' t' m ∧
              topColor fs' = .black ∧ (plug fs' t').keys =
                (plug (f::g::fs) (.branch .left l a c x r)).keys := by
          have hside := fixupSide_at h hu hf hg
          rw [ptr_branch] at hside
          refine (post_bind ..).mpr (hside.imp fun loc s₁ h₁ => ?_)
          obtain ⟨fs',t',m,rfl,hor,hat,hu',hkeys⟩ := h₁
          have hlen := hfuel hf
          rw [List.length_cons,List.length_cons] at hlen
          refine (ih hat hu' (by omega) fun htop => ?_).imp fun _ u h₂ => ?_
          · rcases hor with rfl | hblack
            · omega
            · rw [hblack] at htop
              cases htop
          · obtain ⟨fs'',t'',m',hat',hu'',htop,hkeys'⟩ := h₂
            exact ⟨fs'',t'',m',hat',hu'',htop,hkeys'.trans hkeys⟩
        rw [Frame.fill,ptr_branch]
        cases hg : g.side with
        | left =>
          have hleft : some f.addr =
              (mkNode .left g.key g.color (pathPtr fs) (some f.addr) (ptr g.sib)).left := rfl
          rw [if_pos hleft]
          exact hround .left hg
        | right =>
          have hright : some f.addr ≠
              (mkNode .right g.key g.color (pathPtr fs) (some f.addr) (ptr g.sib)).left :=
            Ne.symm (At.sib_ne (at_cons.mp h))
          rw [if_neg hright]
          exact hround .right hg
      · rw [if_neg hf]
        refine ⟨f::fs,_,n,h,hu,?_,rfl⟩
        cases hc : f.color with
        | black => exact hc
        | red => exact (hf hc).elim

theorem at_plug : At s fs t extra ↔ At s [] (plug fs t) extra := by
  induction fs generalizing t with
  | nil => exact Iff.rfl
  | cons f fs ih => exact at_cons.trans ih

/-- `fixup` leaves a red-black tree with the same keys in the same order. -/
theorem fixup_at (h : At s fs t extra) (hu : Unfinished fs t n) (hfuel : fs.length + 2 ≤ fuel) :
    Total (fixup fuel (ptr t)) s fun _ u => ∃ t' m, At u [] t' extra ∧ t'.Balanced m ∧
      t'.color = .black ∧ t'.keys = (plug fs t).keys := by
  refine (post_bind ..).mpr ((fixupLoop_at h hu (by omega) fun _ => hfuel).imp fun _ s₁ h₁ => ?_)
  obtain ⟨fs',t',m,hat,hu',htop,hkeys⟩ := h₁
  have hne : t' ≠ .leaf := by
    rintro rfl
    cases hu'.red
  have hwhole := at_plug.mp hat
  refine (post_bind ..).mpr ((post_get ..).mpr ?_)
  rw [hwhole.root,rootPtr]
  refine (blacken_at hwhole (plug_ne_leaf fs' hne)).imp fun _ u hu'' => ?_
  obtain ⟨m',hm'⟩ := hu'.plug htop
  exact ⟨_,m',hu'',hm',Tree.color_blacken _,(Tree.keys_blacken _).trans hkeys⟩

end ResumePointers.Dsa.RedBlack

import Mathlib
import ResumePointers.Dsa.RedBlackFixup

/-! Insertion into the tree of `dsa/rb`: what is in memory after the loop of `main` is a red-black
tree with parent pointers. -/
namespace ResumePointers.Dsa.RedBlack

open ResumePointers.RedBlack

variable {s : Memory} {fs : List (Frame ℕ ℤ)} {t l r : Tree ℕ ℤ} {d : Side}
  {a b fuel n : ℕ} {c : Color} {x y : ℤ} {p : Ptr} {keys xs : List ℤ}

/-- The cell of a node that `new` has made. -/
abbrev newCell (b : ℕ) (x : ℤ) : ℕ × Node := (b,⟨x,.red,none,none,none⟩)

theorem newNode_at (h : At s fs t 0) (x : ℤ) : Total (newNode x) s fun p u =>
    p = some s.next ∧ u.root = s.root ∧ At u fs t {newCell s.next x} := by
  rw [newNode]
  refine (post_bind ..).mpr ((post_get ..).mpr ((post_bind ..).mpr ((post_set ..).mpr ?_)))
  refine ⟨rfl,rfl,?_,h.root,fun a ha => ?_⟩
  · have hm := h.mem.alloc (h.next s.next le_rfl) ⟨x,.red,none,none,none⟩
    rw [add_zero,add_comm] at hm
    exact hm
  · have hlt : s.next < a := ha
    exact (Function.update_of_ne (by omega) ..).trans (h.next a (by omega))

/-- The new node is hung below `start`, or the place goes down. -/
theorem insertSide_at (h : At s fs (.branch d l a c y r) {newCell b x}) {rec : Ptr → M Unit}
    {Q : Unit → Memory → Prop}
    (hleaf : l = .leaf → ∀ u, At u (⟨d,a,c,y,r⟩::fs) (.node .leaf b .red x .leaf) 0 → Q () u)
    (hrec : l ≠ .leaf → Total (rec (ptr l)) s Q) :
    Total (insertSide d (some a) (some b) rec) s Q := by
  rw [insertSide]
  refine (post_bind ..).mpr ((deref_post h.node).mpr ?_)
  rw [mkNode_child]
  by_cases hl : l = .leaf
  · subst hl
    have hnone : ptr (.leaf : Tree ℕ ℤ) = none := rfl
    rw [if_pos hnone]
    have hstart : Holds s ({(a,mkNode d y c (pathPtr fs) none (ptr r))} + (pathCells fs (some a) +
        cells r (some a) + {newCell b x})) (rootPtr fs (some a)) := by
      rw [At,cells_branch,ptr_branch] at h
      exact h.congr (by rw [cells,ptr]; abel)
    refine (post_bind ..).mpr ((assign_holds hstart _).imp fun _ s₁ h₁ => ?_)
    rw [mkNode_setChild] at h₁
    have hnew : Holds s₁ ({newCell b x} + ({(a,mkNode d y c (pathPtr fs) (some b) (ptr r))} +
        (pathCells fs (some a) + cells r (some a)))) (rootPtr fs (some a)) :=
      h₁.congr (by abel)
    refine (assign_holds hnew _).imp fun _ u hu => hleaf rfl u ?_
    have hparts : Holds u ({(b,mkNode .left x .red (some a) none none)} +
        ({(a,mkNode d y c (pathPtr fs) (some b) (ptr r))} +
          (pathCells fs (some a) + cells r (some a)))) (rootPtr fs (some a)) := hu
    refine hparts.congr ?_
    change _ = {(a,mkNode d y c (pathPtr fs) (some b) (ptr r))} + (cells r (some a) +
      pathCells fs (some a)) + ({(b,mkNode .left x .red (some a) none none)} + (0 + 0)) + 0
    abel
  · have hptr : ptr l ≠ none := by
      cases l with
      | leaf => exact (hl rfl).elim
      | node => exact Option.some_ne_none _
    rw [if_neg hptr]
    refine (post_bind ..).mpr ((deref_post h.node).mpr ?_)
    rw [mkNode_child]
    exact hrec hl

/-- `insert(start, newnodePtr)` finds a place between the keys below and above the new one. -/
theorem insertAt_at (h : At s fs t {newCell b x}) (ht : t ≠ .leaf) (hplace : Place fs t n)
    (hx : Between fs t x) (hnew : x ∉ t.keys) (hfuel : t.keys.length ≤ fuel) :
    Total (insertAt (some b) fuel (ptr t)) s fun _ u => ∃ fs' m,
      At u fs' (.node .leaf b .red x .leaf) 0 ∧ Place fs' .leaf m ∧ Between fs' .leaf x ∧
        plug fs' .leaf = plug fs t ∧ fs'.length ≤ fs.length + t.keys.length := by
  induction fuel generalizing fs t n with
  | zero =>
    cases t with
    | leaf => exact (ht rfl).elim
    | node l a c y r => simp [Tree.keys] at hfuel
  | succ fuel ih =>
    cases t with
    | leaf => exact (ht rfl).elim
    | node l a c y r =>
      have hcell : s.node b = some ⟨x,.red,none,none,none⟩ := h.mem.read (by simp)
      have hnode : s.node a = some (mkNode .left y c (pathPtr fs) (ptr l) (ptr r)) :=
        At.node (d := .left) h
      have hside (d : Side) (l' r' : Tree ℕ ℤ) (ht' : RedBlack.Tree.node l a c y r = .branch d l' a c y r')
          (hx' : Between (⟨d,a,c,y,r'⟩::fs) l' x) (hnew' : x ∉ l'.keys)
          (hlen : l'.keys.length + 1 ≤ (RedBlack.Tree.node l a c y r).keys.length) :
          Total (insertSide d (some a) (some b) (insertAt (some b) fuel)) s fun _ u => ∃ fs' m,
            At u fs' (.node .leaf b .red x .leaf) 0 ∧ Place fs' .leaf m ∧ Between fs' .leaf x ∧
              plug fs' .leaf = plug fs (.node l a c y r) ∧
              fs'.length ≤ fs.length + (RedBlack.Tree.node l a c y r).keys.length := by
        rw [ht'] at h hplace
        obtain ⟨m,hm⟩ := hplace.down
        refine insertSide_at h (fun hl u hu => ?_) fun hl => ?_
        · subst hl
          refine ⟨_,m,hu,hm,hx',by rw [plug,Frame.fill,ht'],?_⟩
          rw [List.length_cons]
          omega
        · refine (ih (at_cons.mpr h) hl hm hx' hnew' (by omega)).imp fun _ u hu => ?_
          obtain ⟨fs',m',hat,hm',hx'',hplug,hlen'⟩ := hu
          refine ⟨fs',m',hat,hm',hx'',by rw [hplug,plug,Frame.fill,ht'],?_⟩
          rw [List.length_cons] at hlen'
          omega
      rw [Tree.keys,List.mem_append,List.mem_cons,not_or,not_or] at hnew
      rw [insertAt]
      refine (post_bind ..).mpr ((deref_post hcell).mpr ?_)
      refine (post_bind ..).mpr ((deref_post hnode).mpr ?_)
      rw [mkNode_data]
      have hlen : (RedBlack.Tree.node l a c y r).keys.length = l.keys.length + (r.keys.length + 1) := by
        rw [Tree.keys,List.length_append,List.length_cons]
      by_cases hlt : x < y
      · rw [if_pos hlt]
        exact hside .left l r rfl (Between.left hx hlt) hnew.1 (by omega)
      · rw [if_neg hlt]
        exact hside .right r l rfl (Between.right hx (by omega)) hnew.2.2 (by omega)

/-- The memory holds a red-black tree with these keys, each once. -/
def Holding (s : Memory) (keys : List ℤ) : Prop :=
  ∃ t n, At s [] t 0 ∧ t.Balanced n ∧ t.color = .black ∧ t.keys.Pairwise (· < ·) ∧ t.keys.Perm keys

theorem Holding.perm (h : Holding s keys) (hp : keys.Perm xs) : Holding s xs := by
  obtain ⟨t,n,hat,hbal,hblack,hsorted,hperm⟩ := h
  exact ⟨t,n,hat,hbal,hblack,hsorted,hperm.trans hp⟩

theorem fixup_root (h : At s [] t 0) (hne : t ≠ .leaf) (hfuel : 0 < fuel) :
    Total (fixup fuel (ptr t)) s fun _ u => At u [] t.blacken 0 := by
  obtain ⟨k,rfl⟩ := Nat.exists_eq_succ_of_ne_zero hfuel.ne'
  have hroot : s.root = ptr t := h.root
  refine (post_bind ..).mpr ?_
  rw [fixupLoop]
  refine (post_bind ..).mpr ((post_get ..).mpr ?_)
  rw [if_pos hroot.symm]
  refine (post_bind ..).mpr ((post_get ..).mpr ?_)
  rw [hroot]
  exact blacken_at h hne

/-- One round of `main`. -/
theorem insert_fixup (h : Holding s keys) (hnew : x ∉ keys) (hfuel : keys.length + 1 < fuel) :
    Total (do let newnodePtr ← insert fuel x; fixup fuel newnodePtr) s fun _ u =>
      Holding u (x::keys) := by
  obtain ⟨t,n,hat,hbal,hblack,hsorted,hperm⟩ := h
  have hlen := hperm.length_eq
  refine (post_bind ..).mpr ?_
  rw [insert]
  refine (post_bind ..).mpr ((newNode_at hat x).imp fun _ s₁ h₁ => ?_)
  obtain ⟨rfl,hroot,hat₁⟩ := h₁
  refine (post_bind ..).mpr ((post_get ..).mpr ?_)
  rw [hroot,hat.root,rootPtr]
  by_cases hleaf : t = .leaf
  · subst hleaf
    have hnone : ptr (.leaf : Tree ℕ ℤ) = none := rfl
    rw [if_pos hnone]
    have hsingle : At { s₁ with root := some s.next } [] (.node .leaf s.next .red x .leaf) 0 :=
      ⟨hat₁.mem,rfl,hat₁.next⟩
    refine (post_bind ..).mpr ((post_modify ..).mpr ((post_bind ..).mpr ((post_get ..).mpr ?_)))
    refine (post_bind ..).mpr ((blacken_at hsingle (by simp)).imp fun _ s₂ h₂ => ?_)
    refine (fixup_root h₂ (fun he => by cases he) (by omega)).imp fun _ u hu => ?_
    have hnil : keys = [] := List.nil_perm.mp hperm
    rw [hnil]
    exact ⟨_,1,hu,.black .leaf .leaf,rfl,List.pairwise_singleton ..,List.Perm.refl _⟩
  · have hptr : ptr t ≠ none := by
      cases t with
      | leaf => exact (hleaf rfl).elim
      | node => exact Option.some_ne_none _
    have hplace : Place [] t n := ⟨hbal,.nil,fun hred => by rw [hblack] at hred; cases hred⟩
    have hbetween : Between [] t x := ⟨hsorted,List.forall_mem_nil _,List.forall_mem_nil _⟩
    rw [if_neg hptr]
    refine (post_bind ..).mpr ((post_get ..).mpr ?_)
    rw [hroot,hat.root,rootPtr]
    refine (post_bind ..).mpr ((insertAt_at hat₁ hleaf hplace hbetween (fun hx =>
      hnew (hperm.mem_iff.mp hx)) (by omega)).imp fun _ s₂ h₂ => ?_)
    obtain ⟨fs,m,hat₂,hplace',hbetween',hplug,hfs⟩ := h₂
    rw [List.length_nil] at hfs
    refine (fixup_at hat₂ hplace'.unfinished (by omega)).imp fun _ u hu => ?_
    obtain ⟨t',m',hat',hbal',hblack',hkeys⟩ := hu
    have hwhole : t.keys = before fs ++ after fs := by
      have := congrArg Tree.keys hplug
      rw [keys_plug,Tree.keys,List.append_nil] at this
      exact this.symm
    have hnewkeys : t'.keys = before fs ++ x::after fs := by
      rw [hkeys,keys_plug]
      simp [Tree.keys]
    refine ⟨t',m',hat',hbal',hblack',?_,?_⟩
    · rw [hnewkeys]
      exact hbetween'.pairwise (by rw [hplug]; exact hsorted)
    · rw [hnewkeys]
      exact List.perm_middle.trans ((hwhole ▸ hperm).cons x)

theorem insertAll_holding (h : Holding s keys) (hnew : (keys ++ xs).Nodup)
    (hfuel : (keys ++ xs).length < fuel) :
    Total (insertAll fuel xs) s fun _ u => Holding u (keys ++ xs) := by
  induction xs generalizing s keys with
  | nil =>
    rw [List.append_nil]
    exact h
  | cons x xs ih =>
    have hperm : (x::keys ++ xs).Perm (keys ++ x::xs) := List.perm_middle.symm
    have hx : x ∉ keys := by
      have := (List.nodup_cons.mp (hperm.nodup_iff.mpr hnew)).1
      exact fun hk => this (List.mem_append_left _ hk)
    have hlen := hperm.length_eq
    have hround := insert_fixup h hx (show keys.length + 1 < fuel by
      rw [List.length_append,List.length_cons] at hfuel
      omega)
    refine (post_bind ..).mpr (((post_bind ..).mp hround).imp fun p s₁ h₁ => ?_)
    refine (post_bind ..).mpr (h₁.imp fun _ s₂ h₂ => ?_)
    exact (ih h₂ (hperm.nodup_iff.mpr hnew) (by omega)).imp fun _ u hu => hu.perm hperm

/-- A path of pointers from `p` to `nullptr`, with its number of black nodes. -/
inductive NullPath (s : Memory) : Ptr → ℕ → Prop
  | null : NullPath s none 0
  | black {a : ℕ} {n : Node} {k : ℕ} (d : Side) (hn : s.node a = some n) (hc : n.color = .black)
      (h : NullPath s (n.child d) k) : NullPath s (some a) (k + 1)
  | red {a : ℕ} {n : Node} {k : ℕ} (d : Side) (hn : s.node a = some n) (hc : n.color = .red)
      (h : NullPath s (n.child d) k) : NullPath s (some a) k

/-- What is in memory, read off the nodes. -/
structure Valid (s : Memory) (keys : List ℤ) : Prop where
  inorder : ∀ fuel, keys.length < fuel →
    inorder fuel s.root s = .ok (keys.insertionSort (· ≤ ·)) s
  root_black : ∀ a n, s.root = some a → s.node a = some n → n.color = .black
  red_child : ∀ a n d b m, s.node a = some n → n.color = .red → n.child d = some b →
    s.node b = some m → m.color = .black
  null_paths : ∀ j k, NullPath s s.root j → NullPath s s.root k → j = k
  root : ∀ a, s.root = some a → ∃ n, s.node a = some n ∧ n.parent = none
  child : ∀ a n d b, s.node a = some n → n.child d = some b →
    ∃ m, s.node b = some m ∧ m.parent = some a
  parent : ∀ a n, s.node a = some n → n.parent = none ∧ s.root = some a ∨
    ∃ b m d, n.parent = some b ∧ s.node b = some m ∧ m.child d = some a

theorem mem_cells {v : Node} : (a,v) ∈ cells (.node l b c x r) p ↔
    (a,v) = (b,mkNode .left x c p (ptr l) (ptr r)) ∨ (a,v) ∈ cells l (some b) ∨
      (a,v) ∈ cells r (some b) := by
  rw [cells,Multiset.mem_add,Multiset.mem_add,Multiset.mem_singleton]

theorem root_cell (p : Ptr) (h : ptr t = some b) :
    ∃ m, (b,m) ∈ cells t p ∧ m.parent = p ∧ m.color = t.color := by
  cases t with
  | leaf => cases h
  | node l a c x r =>
    obtain rfl := Option.some.inj h
    exact ⟨_,mem_cells.mpr (.inl rfl),rfl,rfl⟩

/-- The child of a node is below it, and black if the node is red. -/
theorem cells_child (ht : t.Balanced n) {v : Node} {d : Side} (h : (a,v) ∈ cells t p)
    (hb : v.child d = some b) :
    ∃ m, (b,m) ∈ cells t p ∧ m.parent = some a ∧ (v.color = .red → m.color = .black) := by
  induction t generalizing p n with
  | leaf => exact (Multiset.notMem_zero _ h).elim
  | node l a₀ c x r ihl ihr =>
    have hsub : ∃ m, l.Balanced m ∧ r.Balanced m ∧
        (c = .red → l.color = .black ∧ r.color = .black) := by
      cases ht with
      | black hl hr => exact ⟨_,hl,hr,nofun⟩
      | red hl hr hlb hrb => exact ⟨_,hl,hr,fun _ => ⟨hlb,hrb⟩⟩
    obtain ⟨m,hl,hr,hcolor⟩ := hsub
    rcases mem_cells.mp h with he | hmem | hmem
    · obtain ⟨rfl,rfl⟩ := Prod.mk.inj he
      cases d with
      | left =>
        obtain ⟨v,hv,hp,hc⟩ := root_cell (some a) hb
        exact ⟨v,mem_cells.mpr (.inr (.inl hv)),hp,fun hred => hc.trans (hcolor hred).1⟩
      | right =>
        obtain ⟨v,hv,hp,hc⟩ := root_cell (some a) hb
        exact ⟨v,mem_cells.mpr (.inr (.inr hv)),hp,fun hred => hc.trans (hcolor hred).2⟩
    · obtain ⟨w,hw,hp,hc⟩ := ihl hl hmem
      exact ⟨w,mem_cells.mpr (.inr (.inl hw)),hp,hc⟩
    · obtain ⟨w,hw,hp,hc⟩ := ihr hr hmem
      exact ⟨w,mem_cells.mpr (.inr (.inr hw)),hp,hc⟩

/-- The parent of a node is the node above it. -/
theorem cells_parent {v : Node} (h : (a,v) ∈ cells t p) : v.parent = p ∧ ptr t = some a ∨
    ∃ b m d, v.parent = some b ∧ (b,m) ∈ cells t p ∧ m.child d = some a := by
  induction t generalizing p with
  | leaf => exact (Multiset.notMem_zero _ h).elim
  | node l a₀ c x r ihl ihr =>
    have hroot : (a₀,mkNode .left x c p (ptr l) (ptr r)) ∈ cells (.node l a₀ c x r) p :=
      mem_cells.mpr (.inl rfl)
    rcases mem_cells.mp h with he | hmem | hmem
    · obtain ⟨rfl,rfl⟩ := Prod.mk.inj he
      exact .inl ⟨rfl,rfl⟩
    · rcases ihl hmem with ⟨hp,ha⟩ | ⟨b,w,d,hp,hw,hd⟩
      · exact .inr ⟨a₀,_,.left,hp,hroot,ha⟩
      · exact .inr ⟨b,w,d,hp,mem_cells.mpr (.inr (.inl hw)),hd⟩
    · rcases ihr hmem with ⟨hp,ha⟩ | ⟨b,w,d,hp,hw,hd⟩
      · exact .inr ⟨a₀,_,.right,hp,hroot,ha⟩
      · exact .inr ⟨b,w,d,hp,mem_cells.mpr (.inr (.inr hw)),hd⟩

/-- What holds of the cells of a tree holds of its root and of the cells of both subtrees. -/
theorem forall_cells {P : ℕ × Node → Prop} (h : ∀ v ∈ cells (.node l a c x r) p, P v) :
    P (a,mkNode .left x c p (ptr l) (ptr r)) ∧ (∀ v ∈ cells l (some a), P v) ∧
      ∀ v ∈ cells r (some a), P v :=
  ⟨h _ (mem_cells.mpr (.inl rfl)),fun v hv => h v (mem_cells.mpr (.inr (.inl hv))),
    fun v hv => h v (mem_cells.mpr (.inr (.inr hv)))⟩

theorem nullPath_length (ht : t.Balanced n) (h : ∀ v ∈ cells t p, s.node v.1 = some v.2) {k : ℕ}
    (hk : NullPath s (ptr t) k) : k = n := by
  induction ht generalizing p k with
  | leaf =>
    cases hk
    rfl
  | @black l r a x n _ _ ihl ihr =>
    obtain ⟨hroot,hl,hr⟩ := forall_cells h
    cases hk with
    | black d hn hc hpath =>
      obtain rfl := Option.some.inj (hroot.symm.trans hn)
      cases d with
      | left => rw [ihl hl hpath]
      | right => rw [ihr hr hpath]
    | red d hn hc hpath =>
      obtain rfl := Option.some.inj (hroot.symm.trans hn)
      cases hc
  | @red l r a x n _ _ _ _ ihl ihr =>
    obtain ⟨hroot,hl,hr⟩ := forall_cells h
    cases hk with
    | black d hn hc hpath =>
      obtain rfl := Option.some.inj (hroot.symm.trans hn)
      cases hc
    | red d hn hc hpath =>
      obtain rfl := Option.some.inj (hroot.symm.trans hn)
      cases d with
      | left => exact ihl hl hpath
      | right => exact ihr hr hpath

theorem inorder_total (h : ∀ v ∈ cells t p, s.node v.1 = some v.2) (hfuel : t.keys.length < fuel) :
    Total (inorder fuel (ptr t)) s fun xs u => xs = t.keys ∧ u = s := by
  induction t generalizing p fuel with
  | leaf =>
    obtain ⟨k,rfl⟩ := Nat.exists_eq_succ_of_ne_zero (Nat.ne_of_gt (Nat.zero_lt_of_lt hfuel))
    exact ⟨rfl,rfl⟩
  | node l a c x r ihl ihr =>
    obtain ⟨hroot,hl,hr⟩ := forall_cells h
    obtain ⟨k,rfl⟩ := Nat.exists_eq_succ_of_ne_zero (Nat.ne_of_gt (Nat.zero_lt_of_lt hfuel))
    rw [Tree.keys,List.length_append,List.length_cons] at hfuel
    have hsome : ptr (.node l a c x r) ≠ none := Option.some_ne_none _
    rw [inorder,if_neg hsome]
    refine (post_bind ..).mpr ((deref_post hroot).mpr ((post_bind ..).mpr ?_))
    refine (ihl hl (show l.keys.length < k by omega)).imp fun _ _ h₁ => ?_
    obtain ⟨rfl,rfl⟩ := h₁
    refine (post_bind ..).mpr ((deref_post hroot).mpr ((post_bind ..).mpr ?_))
    refine (ihr hr (show r.keys.length < k by omega)).imp fun _ _ h₂ => ?_
    obtain ⟨rfl,rfl⟩ := h₂
    exact (post_bind ..).mpr ((deref_post hroot).mpr ⟨rfl,rfl⟩)

theorem Holding.valid (h : Holding s keys) : Valid s keys := by
  obtain ⟨t,n,hat,hbal,hblack,hsorted,hperm⟩ := h
  have hmem : Cells s.node (cells t none) := by
    have hm := hat.mem
    rw [pathCells,pathPtr,zero_add,add_zero] at hm
    exact hm
  have hroot : s.root = ptr t := hat.root
  have hread : ∀ v ∈ cells t none, s.node v.1 = some v.2 := fun v hv => hmem.read hv
  have hcell {a : ℕ} {n : Node} (h : s.node a = some n) : (a,n) ∈ cells t none :=
    (hmem.mem_iff a n).mp h
  refine ⟨fun fuel hfuel => ?_,fun a v ha hv => ?_,fun a v d b w hv hred hb hw => ?_,
    fun j k hj hk => ?_,fun a ha => ?_,fun a v d b hv hb => ?_,fun a v hv => ?_⟩
  · have hkeys : t.keys = keys.insertionSort (· ≤ ·) :=
      (hperm.trans (List.perm_insertionSort _ keys).symm).eq_of_pairwise'
        (hsorted.imp fun h => h.le) (List.pairwise_insertionSort ..)
    obtain ⟨_,_,h,rfl,rfl⟩ := (inorder_total hread (hperm.length_eq ▸ hfuel)).exists_ok
    rw [hroot,h,hkeys]
  · rw [hroot] at ha
    obtain ⟨w,hw,-,hc⟩ := root_cell none ha
    obtain rfl := Option.some.inj ((hread _ hw).symm.trans hv)
    exact hc.trans hblack
  · obtain ⟨w',hw',-,hc⟩ := cells_child hbal (hcell hv) hb
    obtain rfl := Option.some.inj ((hread _ hw').symm.trans hw)
    exact hc hred
  · rw [hroot] at hj hk
    rw [nullPath_length hbal hread hj,nullPath_length hbal hread hk]
  · rw [hroot] at ha
    obtain ⟨w,hw,hp,-⟩ := root_cell none ha
    exact ⟨w,hread _ hw,hp⟩
  · obtain ⟨w,hw,hp,-⟩ := cells_child hbal (hcell hv) hb
    exact ⟨w,hread _ hw,hp⟩
  · rcases cells_parent (hcell hv) with ⟨hp,ha⟩ | ⟨b,w,d,hp,hw,hd⟩
    · exact .inl ⟨hp,hroot.trans ha⟩
    · exact .inr ⟨b,w,d,hp,hread _ hw,hd⟩

/-- Distinct keys, inserted one by one into the empty tree. -/
theorem insertAll_valid (hnodup : keys.Nodup) (hfuel : keys.length < fuel) :
    Total (insertAll fuel keys) .empty fun _ s => Valid s keys := by
  have hempty : Holding .empty [] := by
    refine ⟨.leaf,0,⟨?_,rfl,fun _ _ => rfl⟩,.leaf,rfl,List.Pairwise.nil,List.Perm.refl _⟩
    exact .empty
  exact (insertAll_holding hempty hnodup hfuel).imp fun _ s hs => hs.valid

theorem insertAll_three : Total (insertAll 4 [2,3,1]) .empty fun _ s => Valid s [2,3,1] :=
  insertAll_valid (by decide) (by decide)

end ResumePointers.Dsa.RedBlack

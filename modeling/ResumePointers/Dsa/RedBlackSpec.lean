import ResumePointers.Dsa.RedBlack

/-! What the parts of `dsa/rb` do to the tree in memory, seen from a place in it: the frames above
the place, the subtree below, and cells that are not part of the tree. -/
namespace ResumePointers.Dsa.RedBlack

open ResumePointers.RedBlack

def ptr : Tree ℕ ℤ → Ptr
  | .leaf => none
  | .node _ a _ _ _ => some a

/-- A node with `near` as its child on side `d`. -/
def mkNode (d : Side) (x : ℤ) (c : Color) (parent near far : Ptr) : Node :=
  match d with
  | .left => ⟨x,c,parent,far,near⟩
  | .right => ⟨x,c,parent,near,far⟩

section

variable (d : Side) (x : ℤ) (c c' : Color) (parent near far p : Ptr)

@[simp] theorem mkNode_child : (mkNode d x c parent near far).child d = near := by
  cases d <;> rfl

@[simp] theorem mkNode_child_other : (mkNode d x c parent near far).child d.other = far := by
  cases d <;> rfl

@[simp] theorem mkNode_setChild :
    (mkNode d x c parent near far).setChild d p = mkNode d x c parent p far := by
  cases d <;> rfl

@[simp] theorem mkNode_setChild_other :
    (mkNode d x c parent near far).setChild d.other p = mkNode d x c parent near p := by
  cases d <;> rfl

@[simp] theorem mkNode_parent : (mkNode d x c parent near far).parent = parent := by
  cases d <;> rfl

@[simp] theorem mkNode_color : (mkNode d x c parent near far).color = c := by
  cases d <;> rfl

@[simp] theorem mkNode_data : (mkNode d x c parent near far).data = x := by
  cases d <;> rfl

@[simp] theorem mkNode_setParent :
    ({ mkNode d x c parent near far with parent := p } : Node) = mkNode d x c p near far := by
  cases d <;> rfl

@[simp] theorem mkNode_setColor :
    ({ mkNode d x c parent near far with color := c' } : Node) = mkNode d x c' parent near far := by
  cases d <;> rfl

end

/-- The nodes of a subtree below `parent`. -/
def cells : Tree ℕ ℤ → Ptr → Multiset (ℕ × Node)
  | .leaf,_ => 0
  | .node l a c x r,parent =>
    {(a,mkNode .left x c parent (ptr l) (ptr r))} + (cells l (some a) + cells r (some a))

def pathPtr : List (Frame ℕ ℤ) → Ptr
  | [] => none
  | f::_ => some f.addr

/-- The nodes of the frames and of the subtrees beside, around a place that holds `p`. -/
def pathCells : List (Frame ℕ ℤ) → Ptr → Multiset (ℕ × Node)
  | [],_ => 0
  | f::fs,p => {(f.addr,mkNode f.side f.key f.color (pathPtr fs) p (ptr f.sib))} +
      (cells f.sib (some f.addr) + pathCells fs (some f.addr))

/-- The root of the whole tree. -/
def rootPtr : List (Frame ℕ ℤ) → Ptr → Ptr
  | [],p => p
  | f::fs,_ => rootPtr fs (some f.addr)

@[simp] theorem ptr_branch (d : Side) (l : Tree ℕ ℤ) (a : ℕ) (c : Color) (x : ℤ) (r : Tree ℕ ℤ) :
    ptr (.branch d l a c x r) = some a := by
  cases d <;> rfl

theorem cells_branch (d : Side) (l : Tree ℕ ℤ) (a : ℕ) (c : Color) (x : ℤ) (r : Tree ℕ ℤ)
    (p : Ptr) : cells (.branch d l a c x r) p =
      {(a,mkNode d x c p (ptr l) (ptr r))} + (cells l (some a) + cells r (some a)) := by
  cases d with
  | left => rfl
  | right =>
    change {(a,_)} + (cells r (some a) + cells l (some a)) = _
    rw [add_comm (cells r _)]
    rfl

/-- The memory is these cells, with this root. -/
structure Holds (s : Memory) (M : Multiset (ℕ × Node)) (root : Ptr) : Prop where
  mem : Cells s.node M
  root : s.root = root
  next : ∀ a, s.next ≤ a → s.node a = none

/-- The memory is the tree around a place, with `extra` beside it. -/
def At (s : Memory) (fs : List (Frame ℕ ℤ)) (t : Tree ℕ ℤ) (extra : Multiset (ℕ × Node)) : Prop :=
  Holds s (pathCells fs (ptr t) + cells t (pathPtr fs) + extra) (rootPtr fs (ptr t))

variable {s : Memory} {fs : List (Frame ℕ ℤ)} {f g : Frame ℕ ℤ} {t u l m r : Tree ℕ ℤ} {d : Side}
  {a b : ℕ} {c c' : Color} {x y : ℤ} {n k : Node} {p q root : Ptr}
  {M extra rest : Multiset (ℕ × Node)}

/-- A frame can be seen as a part of the subtree. -/
theorem at_cons : At s (f::fs) t extra ↔ At s fs (f.fill t) extra := by
  have hcells : pathCells (f::fs) (ptr t) + cells t (pathPtr (f::fs)) =
      pathCells fs (ptr (f.fill t)) + cells (f.fill t) (pathPtr fs) := by
    rw [pathCells,Frame.fill,ptr_branch,cells_branch,pathPtr]
    abel
  have hroot : rootPtr (f::fs) (ptr t) = rootPtr fs (ptr (f.fill t)) := by
    rw [rootPtr,Frame.fill,ptr_branch]
  rw [At,At,hcells,hroot]

theorem At.node (h : At s fs (.branch d l a c x r) extra) :
    s.node a = some (mkNode d x c (pathPtr fs) (ptr l) (ptr r)) := by
  refine h.mem.read ?_
  rw [cells_branch]
  simp

theorem At.parent (h : At s (f::fs) t extra) :
    s.node f.addr = some (mkNode f.side f.key f.color (pathPtr fs) (ptr t) (ptr f.sib)) :=
  (at_cons.mp h).node

theorem Holds.congr {N : Multiset (ℕ × Node)} (h : Holds s M root) (he : M = N) :
    Holds s N root := he ▸ h

theorem deref_post (h : s.node a = some n) {Q : Node → Memory → Prop} {E : Fault → Memory → Prop} :
    Post (deref (some a)) s Q E ↔ Q n s := by
  rw [deref,post_bind,post_get,h]
  exact .of_eq (post_pure ..)

theorem assign_post (h : s.node a = some n) {φ : Node → Node} {Q : Unit → Memory → Prop}
    {E : Fault → Memory → Prop} : Post (assign (some a) φ) s Q E ↔
      Q () { s with node := Function.update s.node a (some (φ n)) } := by
  rw [assign,post_bind,post_get,h]
  exact .of_eq (post_modify ..)


theorem assign_holds (h : Holds s ({(a,n)} + rest) root) (φ : Node → Node) :
    Total (assign (some a) φ) s fun _ u => Holds u ({(a,φ n)} + rest) root := by
  have hread : s.node a = some n := h.mem.read (by simp)
  refine (assign_post hread).mpr ⟨h.mem.write _,h.root,fun b hb => ?_⟩
  have hne : b ≠ a := by
    rintro rfl
    have := h.next b hb
    rw [hread] at this
    cases this
  exact (Function.update_of_ne hne ..).trans (h.next b hb)

theorem adopt_holds (h : Holds s (cells t p + rest) root) (q : Ptr) :
    Total (adopt (ptr t) q) s fun _ u => Holds u (cells t q + rest) root := by
  cases t with
  | leaf => exact h
  | node l a c x r =>
    rw [cells,add_assoc] at h
    refine (assign_holds h _).imp fun _ u hu => ?_
    rw [mkNode_setParent,← add_assoc] at hu
    exact hu

/-- The place of a node goes to another one. -/
theorem relink_holds (h : Holds s ({(a,n)} + (pathCells fs (some a) + rest)) (rootPtr fs (some a)))
    (hp : n.parent = pathPtr fs) (b : ℕ) : Total (relink (some a) (some b)) s fun _ u =>
      Holds u ({(a,n)} + (pathCells fs (some b) + rest)) (rootPtr fs (some b)) := by
  have ha : s.node a = some n := h.mem.read (by simp)
  rw [relink]
  refine (post_bind ..).mpr ((deref_post ha).mpr ?_)
  cases fs with
  | nil =>
    rw [hp]
    exact ⟨h.mem,rfl,h.next⟩
  | cons f fs =>
    have hf : s.node f.addr =
        some (mkNode f.side f.key f.color (pathPtr fs) (some a) (ptr f.sib)) :=
      h.mem.read (by simp [pathCells])
    have hsib : ptr f.sib ≠ some a := by
      intro he
      cases hs : f.sib with
      | leaf => rw [hs] at he; cases he
      | node l a' c x r =>
        rw [hs] at he
        obtain rfl := Option.some.inj he
        refine h.mem.ne (b := a') (w := mkNode .left x c (some f.addr) (ptr l) (ptr r)) ?_ rfl
        simp [pathCells,hs,cells]
    have hstep : Holds s ({(f.addr,mkNode f.side f.key f.color (pathPtr fs) (some a) (ptr f.sib))} +
        ({(a,n)} + (cells f.sib (some f.addr) + pathCells fs (some f.addr) + rest)))
        (rootPtr fs (some f.addr)) :=
      h.congr (by rw [pathCells]; abel)
    have hdone : Total (assign (some f.addr) fun n => n.setChild f.side (some b)) s fun _ u =>
        Holds u ({(a,n)} + (pathCells (f::fs) (some b) + rest)) (rootPtr (f::fs) (some b)) := by
      refine (assign_holds hstep _).imp fun _ u hu => ?_
      rw [mkNode_setChild] at hu
      exact hu.congr (by rw [pathCells]; abel)
    rw [hp,pathPtr,if_neg (Option.some_ne_none _)]
    refine (post_bind ..).mpr ((deref_post hf).mpr ?_)
    cases hd : f.side with
    | left =>
      rw [hd] at hdone
      have hleft : some a = (mkNode .left f.key f.color (pathPtr fs) (some a) (ptr f.sib)).left := rfl
      rw [if_pos hleft]
      exact hdone
    | right =>
      rw [hd] at hdone
      have hright : some a ≠ (mkNode .right f.key f.color (pathPtr fs) (some a) (ptr f.sib)).left :=
        Ne.symm hsib
      rw [if_neg hright]
      exact hdone

/-- What a rotation does to the two nodes, to the subtree between them, and to the place they hang
at. -/
theorem rotate_holds {X Y : Color}
    (h : Holds s ({(a,mkNode d x X (pathPtr fs) (some b) p)} +
      ({(b,mkNode d y Y (some a) q (ptr m))} +
        (cells m (some b) + (pathCells fs (some a) + rest)))) (rootPtr fs (some a))) :
    Total (rotate d (some a)) s fun _ u =>
      Holds u ({(a,mkNode d x X (some b) (ptr m) p)} +
        ({(b,mkNode d y Y (pathPtr fs) q (some a))} +
          (cells m (some a) + (pathCells fs (some b) + rest)))) (rootPtr fs (some b)) := by
  have ha : s.node a = some (mkNode d x X (pathPtr fs) (some b) p) := h.mem.read (by simp)
  have hb : s.node b = some (mkNode d y Y (some a) q (ptr m)) := h.mem.read (by simp)
  rw [rotate]
  refine (post_bind ..).mpr ((deref_post ha).mpr ?_)
  rw [mkNode_child]
  refine (post_bind ..).mpr ((deref_post hb).mpr ?_)
  rw [mkNode_child_other]
  refine (post_bind ..).mpr ((assign_holds h _).imp fun _ s₁ h₁ => ?_)
  rw [mkNode_setChild] at h₁
  have hm : Holds s₁ (cells m (some b) + ({(a,mkNode d x X (pathPtr fs) (ptr m) p)} +
      ({(b,mkNode d y Y (some a) q (ptr m))} + (pathCells fs (some a) + rest))))
      (rootPtr fs (some a)) := h₁.congr (by abel)
  refine (post_bind ..).mpr ((adopt_holds hm _).imp fun _ s₂ h₂ => ?_)
  have ha₂ : s₂.node a = some (mkNode d x X (pathPtr fs) (ptr m) p) := h₂.mem.read (by simp)
  refine (post_bind ..).mpr ((deref_post ha₂).mpr ?_)
  rw [mkNode_parent]
  have hb₂ : Holds s₂ ({(b,mkNode d y Y (some a) q (ptr m))} +
      ({(a,mkNode d x X (pathPtr fs) (ptr m) p)} +
        (pathCells fs (some a) + (cells m (some a) + rest)))) (rootPtr fs (some a)) :=
    h₂.congr (by abel)
  refine (post_bind ..).mpr ((assign_holds hb₂ _).imp fun _ s₃ h₃ => ?_)
  rw [mkNode_setParent] at h₃
  have ha₃ : Holds s₃ ({(a,mkNode d x X (pathPtr fs) (ptr m) p)} + (pathCells fs (some a) +
      ({(b,mkNode d y Y (pathPtr fs) q (ptr m))} + (cells m (some a) + rest))))
      (rootPtr fs (some a)) := h₃.congr (by abel)
  refine (post_bind ..).mpr ((relink_holds ha₃ (mkNode_parent ..) b).imp fun _ s₄ h₄ => ?_)
  have hb₄ : Holds s₄ ({(b,mkNode d y Y (pathPtr fs) q (ptr m))} +
      ({(a,mkNode d x X (pathPtr fs) (ptr m) p)} +
        (pathCells fs (some b) + (cells m (some a) + rest)))) (rootPtr fs (some b)) :=
    h₄.congr (by abel)
  refine (post_bind ..).mpr ((assign_holds hb₄ _).imp fun _ s₅ h₅ => ?_)
  rw [mkNode_setChild_other] at h₅
  have ha₅ : Holds s₅ ({(a,mkNode d x X (pathPtr fs) (ptr m) p)} +
      ({(b,mkNode d y Y (pathPtr fs) q (some a))} +
        (pathCells fs (some b) + (cells m (some a) + rest)))) (rootPtr fs (some b)) :=
    h₅.congr (by abel)
  refine (assign_holds ha₅ _).imp fun _ s₆ h₆ => ?_
  rw [mkNode_setParent] at h₆
  exact h₆.congr (by abel)

/-- A rotation of the tree. -/
theorem rotate_at {l m r : Tree ℕ ℤ} (h : At s fs (.branch d (.branch d l b c y m) a c' x r) extra) :
    Total (rotate d (some a)) s fun _ u =>
      At u fs (.branch d l b c y (.branch d m a c' x r)) extra := by
  rw [At,cells_branch,cells_branch,ptr_branch,ptr_branch] at h
  have hparts : Holds s ({(a,mkNode d x c' (pathPtr fs) (some b) (ptr r))} +
      ({(b,mkNode d y c (some a) (ptr l) (ptr m))} + (cells m (some b) + (pathCells fs (some a) +
        (cells l (some b) + cells r (some a) + extra))))) (rootPtr fs (some a)) :=
    h.congr (by abel)
  refine (rotate_holds hparts).imp fun _ u hu => ?_
  rw [At,cells_branch,cells_branch,ptr_branch,ptr_branch]
  exact hu.congr (by abel)

theorem setColor_at (h : At s fs (.branch d l a c x r) extra) (c' : Color) :
    Total (setColor (some a) c') s fun _ u => At u fs (.branch d l a c' x r) extra := by
  rw [At,cells_branch,ptr_branch] at h
  have hparts : Holds s ({(a,mkNode d x c (pathPtr fs) (ptr l) (ptr r))} + (pathCells fs (some a) +
      (cells l (some a) + cells r (some a) + extra))) (rootPtr fs (some a)) :=
    h.congr (by abel)
  refine (assign_holds hparts _).imp fun _ u hu => ?_
  rw [mkNode_setColor] at hu
  rw [At,cells_branch,ptr_branch]
  exact hu.congr (by abel)

end ResumePointers.Dsa.RedBlack

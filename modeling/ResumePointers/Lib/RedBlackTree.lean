import Mathlib.Data.List.Basic
import Mathlib.Order.Basic

/-! Red-black trees with a name for every node, and the frames above a place in such a tree. Left
and right are one case, up to the name of the side. -/
namespace ResumePointers.RedBlack

inductive Color
  | black
  | red
deriving DecidableEq

inductive Side
  | left
  | right
deriving DecidableEq

def Side.other : Side → Side
  | .left => .right
  | .right => .left

@[simp] theorem Side.other_other (d : Side) : d.other.other = d := by
  cases d <;> rfl

theorem Side.eq_or (d e : Side) : e = d ∨ e = d.other := by
  cases d <;> cases e <;> decide

inductive Tree (A α : Type)
  | leaf
  | node (l : Tree A α) (a : A) (c : Color) (x : α) (r : Tree A α)

variable {A α : Type}

namespace Tree

def color : Tree A α → Color
  | leaf => .black
  | node _ _ c _ _ => c

def blacken : Tree A α → Tree A α
  | leaf => leaf
  | node l a _ x r => node l a .black x r

def keys : Tree A α → List α
  | leaf => []
  | node l _ _ x r => l.keys ++ x::r.keys

/-- The nodes in order. -/
def nodes : Tree A α → List (A × Color × α)
  | leaf => []
  | node l a c x r => l.nodes ++ (a,c,x)::r.nodes

/-- The names of the nodes in order. -/
def addrs (t : Tree A α) : List A := t.nodes.map Prod.fst

/-- A node, with the subtree on side `d` first. -/
def branch (d : Side) (near : Tree A α) (a : A) (c : Color) (x : α) (far : Tree A α) : Tree A α :=
  match d with
  | .left => node near a c x far
  | .right => node far a c x near

@[simp] theorem color_branch (d : Side) (l : Tree A α) (a : A) (c : Color) (x : α) (r : Tree A α) :
    (branch d l a c x r).color = c := by
  cases d <;> rfl

@[simp] theorem blacken_branch (d : Side) (l : Tree A α) (a : A) (c : Color) (x : α)
    (r : Tree A α) : (branch d l a c x r).blacken = branch d l a .black x r := by
  cases d <;> rfl

theorem branch_other (d : Side) (l : Tree A α) (a : A) (c : Color) (x : α) (r : Tree A α) :
    branch d.other l a c x r = branch d r a c x l := by
  cases d <;> rfl

theorem keys_blacken (t : Tree A α) : t.blacken.keys = t.keys := by
  cases t <;> rfl

theorem color_blacken (t : Tree A α) : t.blacken.color = .black := by
  cases t <;> rfl

/-- A tree that is not empty, seen from either side. -/
theorem exists_branch (d : Side) {t : Tree A α} (h : t ≠ leaf) :
    ∃ l a c x r, t = branch d l a c x r := by
  cases t with
  | leaf => exact (h rfl).elim
  | node l a c x r =>
    cases d with
    | left => exact ⟨l,a,c,x,r,rfl⟩
    | right => exact ⟨r,a,c,x,l,rfl⟩

theorem keys_congr (d : Side) {t u : Tree A α} (h : t.keys = u.keys) {a b : A} {c c' : Color} {x : α}
    {v w : Tree A α} (hw : v.keys = w.keys) : (branch d t a c x v).keys = (branch d u b c' x w).keys := by
  cases d <;> simp [branch,keys,h,hw]

/-- A rotation leaves the keys in their order. -/
theorem keys_rotate (d : Side) (l m r : Tree A α) {a b a' b' : A} {c e c' e' : Color} {x y : α} :
    (branch d (branch d l a c x m) b e y r).keys =
      (branch d l a' c' x (branch d m b' e' y r)).keys := by
  cases d <;> simp [branch,keys]

theorem nodes_congr (d : Side) {t u v : Tree A α} (h : t.nodes = u.nodes) {a : A} {c : Color} {x : α} :
    (branch d t a c x v).nodes = (branch d u a c x v).nodes := by
  cases d <;> simp [branch,nodes,h]

/-- A rotation leaves the nodes in their order. -/
theorem nodes_rotate (d : Side) (l m r : Tree A α) {a b : A} {c e : Color} {x y : α} :
    (branch d (branch d l a c x m) b e y r).nodes =
      (branch d l a c x (branch d m b e y r)).nodes := by
  cases d <;> simp [branch,nodes]

theorem addrs_node (l : Tree A α) (a : A) (c : Color) (x : α) (r : Tree A α) :
    (node l a c x r).addrs = l.addrs ++ a::r.addrs := by
  simp [addrs,nodes]

/-- No red node has a red child, and every path has `n` black nodes. -/
inductive Balanced : Tree A α → ℕ → Prop
  | leaf : Balanced leaf 0
  | black {l r : Tree A α} {a : A} {x : α} {n : ℕ} (hl : Balanced l n) (hr : Balanced r n) :
      Balanced (node l a .black x r) (n + 1)
  | red {l r : Tree A α} {a : A} {x : α} {n : ℕ} (hl : Balanced l n) (hr : Balanced r n)
      (hlb : l.color = .black) (hrb : r.color = .black) : Balanced (node l a .red x r) n

namespace Balanced

variable {t l r : Tree A α} {a : A} {x : α} {n : ℕ}

theorem branch_black (d : Side) (hl : Balanced l n) (hr : Balanced r n) :
    Balanced (branch d l a .black x r) (n + 1) := by
  cases d with
  | left => exact .black hl hr
  | right => exact .black hr hl

theorem branch_red (d : Side) (hl : Balanced l n) (hr : Balanced r n) (hlb : l.color = .black)
    (hrb : r.color = .black) : Balanced (branch d l a .red x r) n := by
  cases d with
  | left => exact .red hl hr hlb hrb
  | right => exact .red hr hl hrb hlb

theorem of_branch_black {d : Side} (h : Balanced (branch d l a .black x r) n) :
    ∃ m, n = m + 1 ∧ Balanced l m ∧ Balanced r m := by
  cases d with
  | left => cases h with | black hl hr => exact ⟨_,rfl,hl,hr⟩
  | right => cases h with | black hl hr => exact ⟨_,rfl,hr,hl⟩

theorem of_branch_red {d : Side} (h : Balanced (branch d l a .red x r) n) :
    Balanced l n ∧ Balanced r n ∧ l.color = .black ∧ r.color = .black := by
  cases d with
  | left => cases h with | red hl hr hlb hrb => exact ⟨hl,hr,hlb,hrb⟩
  | right => cases h with | red hl hr hlb hrb => exact ⟨hr,hl,hrb,hlb⟩

theorem blacken_of_red (h : Balanced t n) (hc : t.color = .red) : Balanced t.blacken (n + 1) := by
  cases h with
  | leaf => cases hc
  | black _ _ => cases hc
  | red hl hr _ _ => exact .black hl hr

/-- A red root can be painted black. -/
theorem blacken (h : Balanced t n) : ∃ m, Balanced t.blacken m := by
  cases h with
  | leaf => exact ⟨0,.leaf⟩
  | black hl hr => exact ⟨_,.black hl hr⟩
  | red hl hr _ _ => exact ⟨_,.black hl hr⟩

end Balanced

end Tree

/-- One node above a place, with the subtree on its other side. -/
structure Frame (A α : Type) where
  side : Side
  addr : A
  color : Color
  key : α
  sib : Tree A α

/-- The frame filled with a tree. -/
def Frame.fill (f : Frame A α) (t : Tree A α) : Tree A α :=
  .branch f.side t f.addr f.color f.key f.sib

/-- The whole tree. -/
def plug : List (Frame A α) → Tree A α → Tree A α
  | [],t => t
  | f::fs,t => plug fs (f.fill t)

def topColor : List (Frame A α) → Color
  | [] => .black
  | f::_ => f.color

/-- The frames take a tree with `n` black nodes on each path, red only if the place is below a black
node. -/
inductive Fits : List (Frame A α) → ℕ → Prop
  | nil {n : ℕ} : Fits [] n
  | black {f : Frame A α} {fs : List (Frame A α)} {n : ℕ} (hc : f.color = .black)
      (hs : f.sib.Balanced n) (h : Fits fs (n + 1)) : Fits (f::fs) n
  | red {f g : Frame A α} {fs : List (Frame A α)} {n : ℕ} (hc : f.color = .red)
      (hs : f.sib.Balanced n) (hsb : f.sib.color = .black) (hg : g.color = .black)
      (h : Fits (g::fs) n) : Fits (f::g::fs) n

/-- The keys before the place. -/
def before : List (Frame A α) → List α
  | [] => []
  | f::fs =>
    match f.side with
    | .left => before fs
    | .right => before fs ++ (f.sib.keys ++ [f.key])

/-- The keys behind the place. -/
def after : List (Frame A α) → List α
  | [] => []
  | f::fs =>
    match f.side with
    | .left => f.key::f.sib.keys ++ after fs
    | .right => after fs

variable {f g : Frame A α} {fs : List (Frame A α)} {t u : Tree A α} {n : ℕ}

theorem keys_plug (fs : List (Frame A α)) (t : Tree A α) :
    (plug fs t).keys = before fs ++ t.keys ++ after fs := by
  induction fs generalizing t with
  | nil => simp [plug,before,after]
  | cons f fs ih =>
    rw [plug,ih,before,after,Frame.fill]
    cases f.side <;> simp [Tree.branch,Tree.keys]

/-- The frame is black with a tree of any color in it, or red with a black tree. -/
theorem Fits.plug (h : Fits fs n) (ht : t.Balanced n) (hb : t.color = .black ∨ topColor fs = .black) :
    ∃ m, (plug fs t).Balanced m := by
  induction h generalizing t with
  | nil => exact ⟨_,ht⟩
  | @black f fs n hc hs _ ih =>
    have hfill : (f.fill t).Balanced (n + 1) := by
      rw [Frame.fill,hc]
      exact .branch_black _ ht hs
    exact ih hfill (.inl (by rw [Frame.fill,Tree.color_branch,hc]))
  | @red f g fs n hc hs hsb hg _ ih =>
    have htb : t.color = .black := by
      refine hb.resolve_right fun h => ?_
      rw [topColor,hc] at h
      cases h
    have hfill : (f.fill t).Balanced n := by
      rw [Frame.fill,hc]
      exact .branch_red _ ht hs htb hsb
    exact ih hfill (.inr hg)

theorem plug_ne_leaf (fs : List (Frame A α)) (h : t ≠ .leaf) : plug fs t ≠ .leaf := by
  induction fs generalizing t with
  | nil => exact h
  | cons f fs ih =>
    refine ih ?_
    rw [Frame.fill]
    cases f.side <;> exact nofun

theorem keys_plug_congr (fs : List (Frame A α)) (h : t.keys = u.keys) :
    (plug fs t).keys = (plug fs u).keys := by
  rw [keys_plug,keys_plug,h]

theorem nodes_plug_congr (fs : List (Frame A α)) (h : t.nodes = u.nodes) :
    (plug fs t).nodes = (plug fs u).nodes := by
  induction fs generalizing t u with
  | nil => exact h
  | cons f fs ih => exact ih (Tree.nodes_congr f.side h)

/-- Every node of a tree is at a place in it. -/
theorem exists_plug (d : Side) {a : A} (fs : List (Frame A α)) (h : a ∈ t.addrs) :
    ∃ gs l c x r, plug fs t = plug gs (.branch d l a c x r) := by
  induction t generalizing fs with
  | leaf => cases h
  | node l b c x r ihl ihr =>
    rw [Tree.addrs_node,List.mem_append,List.mem_cons] at h
    rcases h with h | rfl | h
    · exact ihl (⟨.left,b,c,x,r⟩::fs) h
    · cases d with
      | left => exact ⟨fs,l,c,x,r,rfl⟩
      | right => exact ⟨fs,r,c,x,l,rfl⟩
    · exact ihr (⟨.right,b,c,x,l⟩::fs) h

/-- A balanced tree with a red root at a place that takes a black one. -/
structure Unfinished (fs : List (Frame A α)) (t : Tree A α) (n : ℕ) : Prop where
  balanced : t.Balanced n
  red : t.color = .red
  fits : Fits fs n

/-- Below a red frame there is a black one. -/
theorem Unfinished.exists_black (h : Unfinished (f::fs) t n) (hf : f.color = .red) :
    ∃ g gs, fs = g::gs ∧ f.sib.Balanced n ∧ f.sib.color = .black ∧ g.color = .black ∧
      g.sib.Balanced n ∧ Fits gs (n + 1) := by
  cases h.fits with
  | black hc => rw [hf] at hc; cases hc
  | @red _ g gs _ _ hs hsb hg h =>
    cases h with
    | black _ hgs h => exact ⟨g,gs,rfl,hs,hsb,hg,hgs,h⟩
    | red hc => rw [hg] at hc; cases hc

/-- Recolored, the place moves two frames up. -/
theorem Unfinished.recolor (h : Unfinished (f::g::fs) t n) (hf : f.color = .red)
    (hg : g.sib.color = .red) : Unfinished fs (.branch g.side
      (.branch f.side t f.addr .black f.key f.sib) g.addr .red g.key g.sib.blacken) (n + 1) := by
  obtain ⟨_,_,he,hs,-,-,hgs,hfits⟩ := h.exists_black hf
  obtain ⟨rfl,rfl⟩ := List.cons.inj he
  exact ⟨.branch_red _ (.branch_black _ h.balanced hs) (hgs.blacken_of_red hg)
    (Tree.color_branch ..) (Tree.color_blacken _),Tree.color_branch ..,hfits⟩

/-- The grandparent rotated, the place is below a black frame. -/
theorem Unfinished.rotate (h : Unfinished (f::g::fs) t n) (hf : f.color = .red)
    (hg : g.sib.color = .black) (d : Side) : Unfinished
      (⟨d,f.addr,.black,f.key,.branch d f.sib g.addr .red g.key g.sib⟩::fs) t n := by
  obtain ⟨_,_,he,hs,hsb,-,hgs,hfits⟩ := h.exists_black hf
  obtain ⟨rfl,rfl⟩ := List.cons.inj he
  exact ⟨h.balanced,h.red,.black rfl (.branch_red _ hs hgs hsb hg) hfits⟩

/-- The parent rotated, it is the place. -/
theorem Unfinished.inner {l r : Tree A α} {a : A} {c : Color} {x : α} {e : Side}
    (h : Unfinished (f::g::fs) (.branch e l a c x r) n) (hf : f.color = .red) (d : Side) :
    Unfinished (⟨d,a,c,x,l⟩::g::fs) (.branch e r f.addr f.color f.key f.sib) n := by
  obtain ⟨_,_,he,hs,hsb,hg,hgs,hfits⟩ := h.exists_black hf
  obtain ⟨rfl,rfl⟩ := List.cons.inj he
  have hc : c = .red := (Tree.color_branch ..).symm.trans h.red
  have hbal := h.balanced
  rw [hc] at hbal ⊢
  obtain ⟨hl,hr,hlb,hrb⟩ := hbal.of_branch_red
  rw [hf]
  exact ⟨.branch_red _ hr hs hrb hsb,Tree.color_branch ..,.red rfl hl hlb hg (.black hg hgs hfits)⟩

/-- Below a black frame the tree is balanced, once its root is painted. -/
theorem Unfinished.plug (h : Unfinished fs t n) (ht : topColor fs = .black) :
    ∃ m, (plug fs t).blacken.Balanced m := by
  obtain ⟨m,hm⟩ := h.fits.plug h.balanced (.inr ht)
  exact hm.blacken

/-- A balanced tree at a place that takes it. -/
structure Place (fs : List (Frame A α)) (t : Tree A α) (n : ℕ) : Prop where
  balanced : t.Balanced n
  fits : Fits fs n
  red : t.color = .red → ∃ g gs, fs = g::gs ∧ g.color = .black

/-- From a node down to its child. -/
theorem Place.down {l r : Tree A α} {a : A} {c : Color} {x : α} {d : Side}
    (h : Place fs (.branch d l a c x r) n) : ∃ m, Place (⟨d,a,c,x,r⟩::fs) l m := by
  have hbal := h.balanced
  cases c with
  | black =>
    obtain ⟨m,rfl,hl,hr⟩ := hbal.of_branch_black
    exact ⟨m,hl,.black rfl hr h.fits,fun _ => ⟨_,fs,rfl,rfl⟩⟩
  | red =>
    obtain ⟨hl,hr,hlb,hrb⟩ := hbal.of_branch_red
    obtain ⟨g,gs,rfl,hg⟩ := h.red (Tree.color_branch ..)
    refine ⟨n,hl,.red rfl hr hrb hg h.fits,fun hred => ?_⟩
    rw [hlb] at hred
    cases hred

/-- A red node in the place of a leaf. -/
theorem Place.unfinished {a : A} {x : α} (h : Place fs .leaf n) :
    Unfinished fs (.node .leaf a .red x .leaf) n := by
  have hbal := h.balanced
  exact ⟨.red hbal hbal rfl rfl,rfl,h.fits⟩

variable [Preorder α] {l r : Tree A α} {a : A} {c : Color} {x y : α}

/-- The keys of a tree and around it are in order, and `x` belongs into the tree. -/
structure Between (fs : List (Frame A α)) (t : Tree A α) (x : α) : Prop where
  sorted : t.keys.Pairwise (· < ·)
  below : ∀ k ∈ before fs, k < x
  above : ∀ k ∈ after fs, x < k

theorem Between.left (h : Between fs (.branch .left l a c y r) x) (hx : x < y) :
    Between (⟨.left,a,c,y,r⟩::fs) l x := by
  obtain ⟨hl,hr,-⟩ := List.pairwise_append.mp h.sorted
  refine ⟨hl,h.below,fun k hk => ?_⟩
  rw [after,List.cons_append,List.mem_cons,List.mem_append] at hk
  rcases hk with rfl | hk | hk
  · exact hx
  · exact hx.trans (List.rel_of_pairwise_cons hr hk)
  · exact h.above k hk

theorem Between.right (h : Between fs (.branch .right l a c y r) x) (hx : y < x) :
    Between (⟨.right,a,c,y,r⟩::fs) l x := by
  obtain ⟨-,hl,hr⟩ := List.pairwise_append.mp h.sorted
  refine ⟨hl.of_cons,fun k hk => ?_,h.above⟩
  rw [before,List.mem_append,List.mem_append,List.mem_singleton] at hk
  rcases hk with hk | hk | rfl
  · exact h.below k hk
  · exact (hr k hk y (List.mem_cons_self ..)).trans hx
  · exact hx

/-- With the key in it, the whole tree is in order. -/
theorem Between.pairwise (h : Between fs t x) (hsorted : (plug fs .leaf).keys.Pairwise (· < ·)) :
    (before fs ++ x::after fs).Pairwise (· < ·) := by
  rw [keys_plug,Tree.keys,List.append_nil] at hsorted
  obtain ⟨hb,ha,hba⟩ := List.pairwise_append.mp hsorted
  refine List.pairwise_append.mpr ⟨hb,List.pairwise_cons.mpr ⟨h.above,ha⟩,fun j hj k hk => ?_⟩
  rcases List.mem_cons.mp hk with rfl | hk
  · exact h.below j hj
  · exact hba j hj k hk

end ResumePointers.RedBlack

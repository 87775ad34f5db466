import Mathlib.Algebra.Order.BigOperators.Group.List
import Mathlib.Algebra.Order.Group.Nat
import ResumePointers.Dsa.RedBlackFixup
import ResumePointers.Lib.Framed

/-! `leftrotate` and `rightrotate` of `dsa/rb` on every well-linked binary tree, in any order of its
keys and with any colors, whatever other nodes there are. -/
namespace ResumePointers.Dsa.RedBlack

open ResumePointers.RedBlack

/-- A pointer to a tree. Every node names the node above it as its parent. -/
inductive Linked (s : Memory) : Ptr → Ptr → Tree ℕ ℤ → Prop
  | leaf (parent : Ptr) : Linked s parent none .leaf
  | node {parent : Ptr} {a : ℕ} {n : Node} {l r : Tree ℕ ℤ} (hn : s.node a = some n)
    (hparent : n.parent = parent) (hl : Linked s (some a) n.left l)
    (hr : Linked s (some a) n.right r) :
    Linked s parent (some a) (.node l a n.color n.data r)

/-- The tree below `root`. No node is in it twice, and the root has no parent. -/
structure WellLinked (s : Memory) (t : Tree ℕ ℤ) : Prop where
  linked : Linked s none s.root t
  nodup : t.addrs.Nodup

/-- The node `a` and its child on side `d` change places. The frames above them and the three
subtrees below them are the same. -/
inductive Rotated (d : Side) (a : ℕ) : Tree ℕ ℤ → Tree ℕ ℤ → Prop
  | mk (fs : List (Frame ℕ ℤ)) (l : Tree ℕ ℤ) (b : ℕ) (c : Color) (y : ℤ) (m : Tree ℕ ℤ) (e : Color)
    (x : ℤ) (r : Tree ℕ ℤ) : Rotated d a (plug fs (.branch d (.branch d l b c y m) a e x r))
      (plug fs (.branch d l b c y (.branch d m a e x r)))

variable {s u : Memory} {t l m r : Tree ℕ ℤ} {fs : List (Frame ℕ ℤ)} {p parent : Ptr} {a b : ℕ}
  {n : Node} {d : Side} {c e : Color} {x y : ℤ}

theorem linked_iff : Linked s parent p t ↔
    p = ptr t ∧ ∀ v ∈ cells t parent, s.node v.1 = some v.2 := by
  constructor
  · intro h
    induction h with
    | leaf parent => exact ⟨rfl,fun v hv => by simp [cells] at hv⟩
    | @node parent a n l r hn hparent _ _ ihl ihr =>
      obtain ⟨hleft,hl⟩ := ihl
      obtain ⟨hright,hr⟩ := ihr
      refine ⟨rfl,fun v hv => ?_⟩
      rw [cells,Multiset.mem_add,Multiset.mem_add,Multiset.mem_singleton] at hv
      rcases hv with rfl | hv | hv
      · rw [hn,← hleft,← hright,← hparent]
        rfl
      · exact hl v hv
      · exact hr v hv
  · rintro ⟨rfl,h⟩
    induction t generalizing parent with
    | leaf => exact .leaf parent
    | node l a c x r ihl ihr =>
      have hn : s.node a = some (mkNode .left x c parent (ptr l) (ptr r)) :=
        h (a,mkNode .left x c parent (ptr l) (ptr r)) (by simp [cells])
      have hl : Linked s (some a) (ptr l) l := ihl fun v hv => h v (by simp [cells,hv])
      have hr : Linked s (some a) (ptr r) r := ihr fun v hv => h v (by simp [cells,hv])
      exact .node hn rfl hl hr

theorem map_fst_cells (t : Tree ℕ ℤ) (p : Ptr) : (cells t p).map Prod.fst = (t.addrs : Multiset ℕ) := by
  induction t generalizing p with
  | leaf => rfl
  | node l a c x r ihl ihr =>
    rw [cells,Multiset.map_add,Multiset.map_add,Multiset.map_singleton,ihl,ihr,Tree.addrs_node]
    rw [← Multiset.coe_add,← Multiset.cons_coe,← Multiset.singleton_add]
    abel

theorem mem_addrs : a ∈ t.addrs ↔ ∃ v, (a,v) ∈ cells t p := by
  rw [← Multiset.mem_coe,← map_fst_cells t p,Multiset.mem_map]
  constructor
  · rintro ⟨⟨b,v⟩,hv,rfl⟩
    exact ⟨v,hv⟩
  · rintro ⟨v,hv⟩
    exact ⟨(a,v),hv,rfl⟩

theorem at_nil : At s [] t 0 ↔ Holds s (cells t none) (ptr t) := by
  rw [At,pathCells,pathPtr,rootPtr,zero_add,add_zero]

/-- A memory with more nodes beside it, and with another place for the next one. -/
def Memory.beside (s : Memory) (o : (ℕ → Option Node) × ℕ) : Memory :=
  ⟨s.root,fun a => (s.node a).or (o.1 a),o.2⟩

theorem beside_node (h : s.node a = some n) (o : (ℕ → Option Node) × ℕ) :
    (s.beside o).node a = some n := by
  simp only [Memory.beside,h,Option.some_or]

/-- A store to a node of the memory. -/
theorem beside_update (h : s.node a = some n) (k : Node) (o : (ℕ → Option Node) × ℕ) :
    { s.beside o with node := Function.update (s.beside o).node a (some k) } =
      Memory.beside { s with node := Function.update s.node a (some k) } o := by
  simp only [Memory.beside,Memory.mk.injEq,true_and,and_true]
  funext i
  rcases eq_or_ne i a with rfl | hi
  · rw [Function.update_self,Function.update_self,Option.some_or]
  · rw [Function.update_of_ne hi,Function.update_of_ne hi]

theorem deref_eq (a : ℕ) (s : Memory) :
    deref (some a) s = (s.node a).elim (.error .null s) fun n => .ok n s := by
  simp only [deref,bind,EStateM.bind,get_run]
  cases s.node a <;> rfl

theorem assign_eq (a : ℕ) (f : Node → Node) (s : Memory) : assign (some a) f s =
    (s.node a).elim (.error .null s) fun n =>
      .ok () { s with node := Function.update s.node a (some (f n)) } := by
  simp only [assign,bind,EStateM.bind,get_run]
  cases s.node a <;> rfl

/-- One access to the node `a` does the same with more nodes beside it. -/
theorem framed_access {α : Type} {m : M α} {v : Node → α} {w : Node → Memory → Memory}
    (hm : ∀ s, m s = (s.node a).elim (.error .null s) fun n => .ok (v n) (w n s))
    (hw : ∀ s n o, s.node a = some n → w n (s.beside o) = (w n s).beside o) :
    Framed Memory.beside m := by
  intro s b t h o
  rw [hm] at h ⊢
  cases hn : s.node a with
  | none =>
    rw [hn] at h
    cases h
  | some n =>
    rw [hn] at h
    cases h
    rw [beside_node hn]
    exact congrArg (EStateM.Result.ok _) (hw s n o hn)

theorem framed_deref (p : Ptr) : Framed Memory.beside (deref p) := by
  cases p with
  | none => exact nofun
  | some a => exact framed_access (deref_eq a) fun _ _ _ _ => rfl

theorem framed_assign (p : Ptr) (f : Node → Node) : Framed Memory.beside (assign p f) := by
  cases p with
  | none => exact nofun
  | some a => exact framed_access (assign_eq a f) fun s n o hn => beside_update hn (f n) o

theorem framed_adopt (p loc : Ptr) : Framed Memory.beside (adopt p loc) :=
  .ite (framed_assign p _) (.pure _)

theorem framed_relink (loc child : Ptr) : Framed Memory.beside (relink loc child) := by
  apply Framed.bind (framed_deref loc)
  intro n
  apply Framed.ite
  · exact .modify fun _ _ => rfl
  · apply Framed.bind (framed_deref n.parent)
    intro k
    exact .ite (framed_assign _ _) (framed_assign _ _)

theorem framed_rotate (d : Side) (loc : Ptr) : Framed Memory.beside (rotate d loc) := by
  apply Framed.bind (framed_deref loc)
  intro n
  apply Framed.bind (framed_deref (n.child d))
  intro k
  apply Framed.bind (framed_assign _ _)
  intro _
  apply Framed.bind (framed_adopt _ _)
  intro _
  apply Framed.bind (framed_deref loc)
  intro n'
  apply Framed.bind (framed_assign _ _)
  intro _
  apply Framed.bind (framed_relink _ _)
  intro _
  apply Framed.bind (framed_assign _ _)
  intro _
  exact framed_assign _ _

/-- The nodes of a tree as a memory of their own. -/
def Memory.only (s : Memory) (t : Tree ℕ ℤ) : Memory :=
  ⟨s.root,fun i => if i ∈ t.addrs then s.node i else none,t.addrs.sum + 1⟩

theorem only_node (h : a ∈ t.addrs) : (s.only t).node a = s.node a := if_pos h

theorem only_node_of_notMem (h : a ∉ t.addrs) : (s.only t).node a = none := if_neg h

theorem only_beside (s : Memory) (t : Tree ℕ ℤ) : (s.only t).beside (s.node,s.next) = s := by
  cases s with
  | mk root node next =>
    simp only [Memory.beside,Memory.only,Memory.mk.injEq,true_and,and_true]
    funext i
    split
    · cases node i <;> rfl
    · rfl

theorem WellLinked.only (h : WellLinked s t) : At (s.only t) [] t 0 := by
  obtain ⟨hroot,hcells⟩ := linked_iff.mp h.linked
  refine at_nil.mpr ⟨⟨?_,fun i v => ⟨fun hv => ?_,fun hv => ?_⟩⟩,hroot,fun i hi => ?_⟩
  · rw [map_fst_cells]
    exact Multiset.coe_nodup.mpr h.nodup
  · by_cases hi : i ∈ t.addrs
    · obtain ⟨k,hk⟩ := (mem_addrs (p := none)).mp hi
      rw [only_node hi,hcells (i,k) hk] at hv
      cases hv
      exact hk
    · rw [only_node_of_notMem hi] at hv
      cases hv
  · rw [only_node (mem_addrs.mpr ⟨v,hv⟩)]
    exact hcells (i,v) hv
  · apply only_node_of_notMem
    intro hmem
    have hle := List.le_sum_of_mem hmem
    have hlt : t.addrs.sum < i := hi
    omega

/-- A memory that is a tree has a well-linked tree, also with more beside it. -/
theorem At.wellLinked (h : At s [] t 0) (o : (ℕ → Option Node) × ℕ) :
    WellLinked (s.beside o) t := by
  obtain ⟨hmem,hroot,-⟩ := at_nil.mp h
  constructor
  · exact linked_iff.mpr ⟨hroot,fun v hv => beside_node (hmem.read hv) o⟩
  · have := hmem.nodup
    rw [map_fst_cells] at this
    exact Multiset.coe_nodup.mp this

theorem At.node_eq_none (h : At s [] t 0) (ha : a ∉ t.addrs) : s.node a = none := by
  obtain ⟨hmem,-,-⟩ := at_nil.mp h
  cases hn : s.node a with
  | none => rfl
  | some n => exact absurd (mem_addrs.mpr ⟨n,(hmem.mem_iff a n).mp hn⟩) ha

/-- What a rotation of the node `a` of the tree `t` does, when it lifts the child on side `d`. -/
structure Turns (d : Side) (a : ℕ) (s : Memory) (t : Tree ℕ ℤ) (u : Memory) (t' : Tree ℕ ℤ) : Prop where
  wellLinked : WellLinked u t'
  nodes : t'.nodes = t.nodes
  rotated : Rotated d a t t'
  root : u.root ≠ s.root ↔ s.root = some a
  beside : ∀ i ∉ t.addrs, u.node i = s.node i

/-- The root is another one exactly if the rotated node was there. -/
theorem root_rotated {extra extra' : Multiset (ℕ × Node)}
    (h : At s fs (.branch d (.branch d l b c y m) a e x r) extra)
    (hu : At u fs (.branch d l b c y (.branch d m a e x r)) extra') :
    u.root ≠ s.root ↔ s.root = some a := by
  have hroot := h.root
  have hroot' := hu.root
  rw [ptr_branch] at hroot hroot'
  cases fs with
  | nil =>
    have hchild : At s [⟨d,a,e,x,r⟩] (.branch d l b c y m) extra := at_cons.mpr h
    have hne := hchild.root_ne
    rw [hroot] at hne ⊢
    rw [hroot']
    exact iff_of_true hne rfl
  | cons f fs =>
    have hsame : u.root = s.root := hroot'.trans hroot.symm
    exact iff_of_false (not_not_intro hsame) h.root_ne.symm

theorem rotate_turns (h : WellLinked s t) (ha : a ∈ t.addrs) (hn : s.node a = some n)
    (hchild : n.child d ≠ none) :
    Total (rotate d (some a)) s fun _ u => ∃ t', Turns d a s t u t' := by
  obtain ⟨fs,near,e,x,r,heq⟩ := exists_plug d [] ha
  rw [plug] at heq
  subst heq
  have hat := at_plug.mpr h.only
  have hnode := hat.node
  rw [only_node ha,hn] at hnode
  have hnear : near ≠ .leaf := by
    rintro rfl
    cases hnode
    exact hchild (mkNode_child ..)
  obtain ⟨l,b,c,y,m,rfl⟩ := Tree.exists_branch d hnear
  have hrun := (framed_rotate d (some a)).total (rotate_at hat) (s.node,s.next)
  rw [only_beside] at hrun
  refine hrun.imp fun _ u hu => ?_
  obtain ⟨w,rfl,hw⟩ := hu
  have hw' := at_plug.mp hw
  have hnodes : (plug fs (.branch d l b c y (.branch d m a e x r))).nodes =
      (plug fs (.branch d (.branch d l b c y m) a e x r)).nodes :=
    nodes_plug_congr fs (Tree.nodes_rotate d l m r).symm
  have hroot := root_rotated hat hw
  refine ⟨_,hw'.wellLinked _,hnodes,.mk ..,hroot,fun i hi => ?_⟩
  have hnone : w.node i = none := by
    apply hw'.node_eq_none
    rw [Tree.addrs,hnodes]
    exact hi
  simp only [Memory.beside,hnone,Option.none_or]

/-- Either rotation of a node turns the tree, if the child that it lifts is there. -/
theorem rotations_turn (h : WellLinked s t) (ha : a ∈ t.addrs) (hn : s.node a = some n) :
    (n.right ≠ none → Total (leftrotate (some a)) s fun _ u => ∃ t', Turns .right a s t u t') ∧
    (n.left ≠ none → Total (rightrotate (some a)) s fun _ u => ∃ t', Turns .left a s t u t') :=
  ⟨fun hright => rotate_turns (d := .right) h ha hn hright,
    fun hleft => rotate_turns (d := .left) h ha hn hleft⟩

/-- A root with two children, the keys out of order. -/
def twoChildren : Memory where
  root := some 4
  node
    | 1 => some ⟨7,.red,some 4,none,none⟩
    | 4 => some ⟨7,.red,none,some 6,some 1⟩
    | 6 => some ⟨2,.black,some 4,none,none⟩
    | _ => none
  next := 0

def twoChildrenTree : Tree ℕ ℤ :=
  .node (.node .leaf 1 .red 7 .leaf) 4 .red 7 (.node .leaf 6 .black 2 .leaf)

theorem rotations_turn_twoChildren :
    Total (leftrotate (some 4)) twoChildren
      (fun _ u => ∃ t', Turns .right 4 twoChildren twoChildrenTree u t') ∧
    Total (rightrotate (some 4)) twoChildren
      (fun _ u => ∃ t', Turns .left 4 twoChildren twoChildrenTree u t') := by
  have hleft : Linked twoChildren (some 4) (some 1) (.node .leaf 1 .red 7 .leaf) :=
    .node (n := ⟨7,.red,some 4,none,none⟩) rfl rfl (.leaf _) (.leaf _)
  have hright : Linked twoChildren (some 4) (some 6) (.node .leaf 6 .black 2 .leaf) :=
    .node (n := ⟨2,.black,some 4,none,none⟩) rfl rfl (.leaf _) (.leaf _)
  have hlinked : WellLinked twoChildren twoChildrenTree :=
    ⟨.node (n := ⟨7,.red,none,some 6,some 1⟩) rfl rfl hleft hright,by decide⟩
  have hmem : 4 ∈ twoChildrenTree.addrs := by decide
  obtain ⟨hl,hr⟩ := rotations_turn hlinked hmem rfl
  exact ⟨hl nofun,hr nofun⟩

end ResumePointers.Dsa.RedBlack

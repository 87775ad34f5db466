import ResumePointers.Lib.Cells
import ResumePointers.Lib.Post
import ResumePointers.Lib.RedBlackTree

/-! The red-black tree of `dsa/rb`: nodes in memory, with pointers to their children and to their
parent. The left and the right case of the source are one function of the side. -/
namespace ResumePointers.Dsa.RedBlack

open ResumePointers.RedBlack

/-- `nullptr` is `none`. -/
abbrev Ptr := Option ℕ

/-- `struct node`. -/
structure Node where
  data : ℤ
  color : Color
  parent : Ptr
  right : Ptr
  left : Ptr
deriving DecidableEq

namespace Node

def child (n : Node) : Side → Ptr
  | .left => n.left
  | .right => n.right

def setChild (n : Node) : Side → Ptr → Node
  | .left,p => { n with left := p }
  | .right,p => { n with right := p }

end Node

/-- `RedBlackTree`, with the nodes that `new` has made. -/
structure Memory where
  root : Ptr
  node : ℕ → Option Node
  next : ℕ

inductive Fault
  | null
  | fuel
deriving DecidableEq

abbrev M := EStateM Fault Memory

/-- The node behind a pointer. -/
def deref (p : Ptr) : M Node := do
  match p with
  | none => throw .null
  | some a =>
    match (← get).node a with
    | none => throw .null
    | some n => pure n

/-- A store to a field of the node behind a pointer. -/
def assign (p : Ptr) (f : Node → Node) : M Unit := do
  match p with
  | none => throw .null
  | some a =>
    match (← get).node a with
    | none => throw .null
    | some n => modify fun s => { s with node := Function.update s.node a (some (f n)) }

/-- `if (p != nullptr) p->parent = loc`. -/
def adopt (p loc : Ptr) : M Unit := do
  if p ≠ none then assign p fun n => { n with parent := loc }

/-- The place of `loc` below its parent, or at the root, is given to `child`. -/
def relink (loc child : Ptr) : M Unit := do
  let parent := (← deref loc).parent
  if parent = none then modify fun s => { s with root := child }
  else if loc = (← deref parent).left then assign parent fun n => { n with left := child }
  else assign parent fun n => { n with right := child }

/-- The rotation that lifts the child on side `d`. -/
def rotate (d : Side) (loc : Ptr) : M Unit := do
  let child := (← deref loc).child d
  let inner := (← deref child).child d.other
  assign loc fun n => n.setChild d inner
  adopt inner loc
  let parent := (← deref loc).parent
  assign child fun n => { n with parent := parent }
  relink loc child
  assign child fun n => n.setChild d.other loc
  assign loc fun n => { n with parent := child }

def rightrotate := rotate .left

def leftrotate := rotate .right

/-- `p && p->color == 1`. -/
def isRed (p : Ptr) : M Bool := do
  if p = none then pure false else pure ((← deref p).color = .red)

def setColor (p : Ptr) (c : Color) : M Unit := assign p fun n => { n with color := c }

/-- A node that is not on its parent's side is rotated to it: the parent is `loc` then. -/
def fixupInner (d : Side) (loc : Ptr) : M Ptr := do
  let parent := (← deref loc).parent
  if loc = (← deref parent).child d.other then
    rotate d.other parent
    pure parent
  else pure loc

/-- The rotation of the grandparent. -/
def fixupOuter (d : Side) (loc : Ptr) : M Unit := do
  let parent := (← deref loc).parent
  setColor parent .black
  let grandparent := (← deref parent).parent
  setColor grandparent .red
  rotate d grandparent

/-- One round of `fixup` for a parent on side `d` of the grandparent; returns the new `loc`. -/
def fixupSide (d : Side) (loc : Ptr) : M Ptr := do
  let parent := (← deref loc).parent
  let grandparent := (← deref parent).parent
  let uncle := (← deref grandparent).child d.other
  if ← isRed uncle then
    setColor parent .black
    setColor uncle .black
    setColor grandparent .red
    pure grandparent
  else
    let loc ← fixupInner d loc
    fixupOuter d loc
    pure loc

/-- `while (loc != root && loc->parent->color == 1)`. -/
def fixupLoop : ℕ → Ptr → M Unit
  | 0,_ => throw .fuel
  | fuel + 1,loc => do
    if loc = (← get).root then pure ()
    else
      let parent := (← deref loc).parent
      if (← deref parent).color = .red then
        let grandparent := (← deref parent).parent
        if parent = (← deref grandparent).left then fixupLoop fuel (← fixupSide .left loc)
        else fixupLoop fuel (← fixupSide .right loc)
      else pure ()

def fixup (fuel : ℕ) (loc : Ptr) : M Unit := do
  fixupLoop fuel loc
  setColor (← get).root .black

/-- `insert(start, newnodePtr)` on side `d` of `start`, with the recursive call. -/
def insertSide (d : Side) (start newnodePtr : Ptr) (insert : Ptr → M Unit) : M Unit := do
  if (← deref start).child d = none then
    assign start fun n => n.setChild d newnodePtr
    assign newnodePtr fun n => { n with parent := start }
  else insert ((← deref start).child d)

def insertAt (newnodePtr : Ptr) : ℕ → Ptr → M Unit
  | 0,_ => throw .fuel
  | fuel + 1,start => do
    if (← deref newnodePtr).data < (← deref start).data then
      insertSide .left start newnodePtr (insertAt newnodePtr fuel)
    else insertSide .right start newnodePtr (insertAt newnodePtr fuel)

/-- `new node(data)`. -/
def newNode (data : ℤ) : M Ptr := do
  let s ← get
  set { s with node := Function.update s.node s.next (some ⟨data,.red,none,none,none⟩), next := s.next + 1 }
  pure (some s.next)

/-- `insert(data)`. -/
def insert (fuel : ℕ) (data : ℤ) : M Ptr := do
  let newnodePtr ← newNode data
  if (← get).root = none then
    modify fun s => { s with root := newnodePtr }
    setColor (← get).root .black
    pure newnodePtr
  else
    insertAt newnodePtr fuel (← get).root
    pure newnodePtr

/-- The loop of `main`. -/
def insertAll (fuel : ℕ) : List ℤ → M Unit
  | [] => pure ()
  | x::xs => do
    let newnodePtr ← insert fuel x
    fixup fuel newnodePtr
    insertAll fuel xs

/-- `inorder(start)`, which prints. -/
def inorder : ℕ → Ptr → M (List ℤ)
  | 0,_ => throw .fuel
  | fuel + 1,start => do
    if start = none then pure []
    else
      let l ← inorder fuel (← deref start).left
      let r ← inorder fuel (← deref start).right
      pure (l ++ (← deref start).data::r)

def Memory.empty : Memory := ⟨none,fun _ => none,0⟩

end ResumePointers.Dsa.RedBlack

import FF.Lib.Heap
import FF.Lib.RedBlack

/-!
# The binary tree and red-black tree operations

The functions of `FF/ffrbtree.c` and the inline functions of `FF/rbtree.h`, on a heap of
nodes. A node is reached through a pointer that is `NULL`, the sentinel `&tr->sentl`, or the
address of a user's node; reading through `NULL` or through memory that is not allocated
fails the run, and so does a failed `FF_ASSERT`.

Every loop of the source follows the links of one tree, so it makes at most as many steps as
the tree has nodes. The loops here count down a `fuel` that the callers set from `tr->len`;
`none` also stands for a loop that outlives it.

The source writes the mirrored cases out twice. Here they share one definition with a
direction, which is then applied to each side.
-/

namespace FF

/-- Pointers to tree nodes. -/
inductive Ptr
  | null
  | sentl
  | node (n : ℕ)
  deriving DecidableEq, Repr

/-- `ffrbt_node`. -/
structure FfrbtNode where
  left : Ptr
  right : Ptr
  parent : Ptr
  color : Color
  key : ℕ
  deriving DecidableEq, Repr

/-- A node after `ffmem_calloc`. -/
def FfrbtNode.zero : FfrbtNode := ⟨.null, .null, .null, .black, 0⟩

/-- The memory that holds the nodes and the sentinel. -/
abbrev Nodes := Heap Ptr FfrbtNode

/-- `ffrbtree`: the sentinel is the cell `Ptr.sentl` of the node memory, and `insnode` is
`fftree_insert`. -/
structure Ffrbtree where
  len : ℕ
  root : Ptr
  nodes : Nodes

namespace FfrbtNode

/-- The child on a side. -/
def child (n : FfrbtNode) : Dir → Ptr
  | .left => n.left
  | .right => n.right

/-- Replace the child on a side. -/
def setChild (n : FfrbtNode) (d : Dir) (p : Ptr) : FfrbtNode :=
  match d with
  | .left => { n with left := p }
  | .right => { n with right := p }

end FfrbtNode

/-- `p->color = c`. -/
def setColor (h : Nodes) (p : Ptr) (c : Color) : Option Nodes :=
  h.modify p fun n => { n with color := c }

/-- `p->parent = q`. -/
def setParent (h : Nodes) (p q : Ptr) : Option Nodes :=
  h.modify p fun n => { n with parent := q }

/-- Make a node become a child of `parnt`. -/
def linkChild (d : Dir) (h : Nodes) (parnt child : Ptr) : Option Nodes := do
  let h ← h.modify parnt fun n => n.setChild d child
  setParent h child parnt

/-- `link_leftchild`. -/
def linkLeftchild : Nodes → Ptr → Ptr → Option Nodes := linkChild .left

/-- `link_rightchild`. -/
def linkRightchild : Nodes → Ptr → Ptr → Option Nodes := linkChild .right

/-- Make a node become a left/right child of the parent of `nold`. Returns the memory and the
root. -/
def relinkParent (h : Nodes) (root nold nnew : Ptr) : Option (Nodes × Ptr) := do
  let p := (← h nold).parent
  let (h, root) ←
    (if p = .sentl then pure (h, nnew)
    else do
      let pn ← h p
      let d := if nold = pn.left then Dir.left else Dir.right
      let h ← h.modify p fun n => n.setChild d nnew
      pure (h, root))
  let h ← setParent h nnew p
  pure (h, root)

/-! ### Search -/

/-- The loop of `fftree_findnode`. -/
def findnodeLoop : ℕ → Nodes → ℕ → Ptr → Ptr → Option (Ptr × Ptr)
  | 0, _, _, _, _ => none
  | fuel + 1, h, key, nod, root =>
    if nod = .sentl then some (.null, root)
    else do
      let n ← h nod
      if key < n.key then findnodeLoop fuel h key n.left nod
      else if n.key < key then findnodeLoop fuel h key n.right nod
      else some (nod, nod)

/-- `fftree_findnode`: the node with the key, or `NULL`, and the last node visited. -/
def fftreeFindnode (fuel : ℕ) (h : Nodes) (key : ℕ) (root : Ptr) : Option (Ptr × Ptr) :=
  findnodeLoop fuel h key root root

/-- `ffrbt_find`: the node with the key, or `NULL`, and the value stored to `*parent`. -/
def ffrbtFind (tr : Ffrbtree) (key : ℕ) : Option (Ptr × Ptr) :=
  fftreeFindnode (tr.len + 1) tr.nodes key tr.root

/-- The loop of `fftree_min`. -/
def minLoop : ℕ → Nodes → Ptr → Option Ptr
  | 0, _, _ => none
  | fuel + 1, h, nod => do
      let n ← h nod
      if n.left = .sentl then some nod else minLoop fuel h n.left

/-- `fftree_min`. -/
def fftreeMin (fuel : ℕ) (h : Nodes) (nod : Ptr) : Option Ptr := do
  guard (nod ≠ .sentl)
  minLoop fuel h nod

/-! ### Insertion -/

/-- The loop of `fftree_insert`: the parent of the new node and the side it goes to. -/
def insertLoop : ℕ → Nodes → Ptr → Ptr → Option (Dir × Ptr)
  | 0, _, _, _ => none
  | fuel + 1, h, nod, parent => do
      let n ← h nod
      let p ← h parent
      let d := if n.key < p.key then Dir.left else Dir.right
      if p.child d = .sentl then some (d, parent) else insertLoop fuel h nod (p.child d)

/-- `fftree_insert`. -/
def fftreeInsert (fuel : ℕ) (h : Nodes) (nod root : Ptr) : Option (Nodes × Ptr) := do
  let (h, root) ←
    (if root = .sentl then do
      let h ← setParent h nod .sentl
      pure (h, nod)
    else do
      let (d, parent) ← insertLoop fuel h nod root
      let h ← h.modify parent fun n => n.setChild d nod
      let h ← setParent h nod parent
      pure (h, root))
  let h ← h.modify nod fun n => { n with left := .sentl, right := .sentl }
  pure (h, root)

/-- `left_rotate` for the direction `left`, `right_rotate` for `right`: the child of `nod` on
the other side takes the place of `nod`. -/
def rotate (d : Dir) (h : Nodes) (root nod : Ptr) : Option (Nodes × Ptr) := do
  let r := (← h nod).child d.other
  guard (nod ≠ .sentl ∧ r ≠ .sentl)
  let rl := (← h r).child d
  let h ← h.modify nod fun n => n.setChild d.other rl
  let h ← (if rl ≠ .sentl then setParent h rl nod else pure h)
  let (h, root) ← relinkParent h root nod r
  let h ← linkChild d h r nod
  pure (h, root)

/-- `left_rotate`. -/
def leftRotate : Nodes → Ptr → Ptr → Option (Nodes × Ptr) := rotate .left

/-- `right_rotate`. -/
def rightRotate : Nodes → Ptr → Ptr → Option (Nodes × Ptr) := rotate .right

/-- One round of the loop of `ffrbt_insert` where the parent is the child of the grandparent
on the side `d`. Returns the memory, the root, and the node to go on with, if any. -/
def insertSide (d : Dir) (h : Nodes) (root nod : Ptr) :
    Option (Nodes × Ptr × Option Ptr) := do
  let p := (← h nod).parent
  let gp := (← h p).parent
  let uncle := (← h gp).child d.other
  let uncleColor := (← h uncle).color
  if uncleColor = .black then do
    let bent := nod = (← h p).child d.other
    let (h, root, nod) ←
      (if bent then do
        let (h, root) ← rotate d h root p
        pure (h, root, p)
      else pure (h, root, nod))
    let h ← setColor h (← h nod).parent .black
    let h ← setColor h gp .red
    let (h, root) ← rotate d.other h root gp
    pure (h, root, none)
  else do
    -- both parent and uncle are red
    let h ← setColor h p .black
    let h ← setColor h uncle .black
    let h ← setColor h gp .red
    pure (h, root, some gp)

/-- The loop of `ffrbt_insert`: fix up while the parent is also red. -/
def insertFixup : ℕ → Nodes → Ptr → Ptr → Option (Nodes × Ptr)
  | 0, _, _, _ => none
  | fuel + 1, h, root, nod => do
      let p := (← h nod).parent
      let pn ← h p
      if pn.color = .black then pure (h, root)
      else do
        let gn ← h pn.parent
        let (h, root, next) ←
          (if p = gn.left then insertSide .left h root nod else insertSide .right h root nod)
        match next with
        | none => pure (h, root)
        | some gp => insertFixup fuel h root gp

/-- `ffrbt_insert`. -/
def ffrbtInsert (tr : Ffrbtree) (nod parent : Ptr) : Option Ffrbtree := do
  let fromParent := parent ≠ .null ∧ parent ≠ .sentl
  let root := if fromParent then parent else tr.root
  let (h, root) ← fftreeInsert (tr.len + 1) tr.nodes nod root
  let h ← setColor h nod .red
  let root := if fromParent then tr.root else root
  let (h, root) ← insertFixup (tr.len + 1) h root nod
  let h ← setColor h root .black
  pure { len := tr.len + 1, root := root, nodes := h }

/-! ### Removal -/

/-- The part of `tree_rm` that takes the successor `next` out of the right subtree of `nod`,
the rest of which becomes the right subtree of `next`; `x` is the right child of `next`. -/
def detachNext (h : Nodes) (nod next x : Ptr) : Option Nodes := do
  if next = (← h nod).right then setParent h x next
  else do
    -- 'next' is not a direct child of 'nod'
    let h ← linkLeftchild h (← h next).parent (← h next).right
    linkRightchild h next (← h nod).right

/-- `tree_rm`: returns the node that moved up, the successor that took the place of `nod` or
`NULL`, the memory and the root. -/
def treeRm (fuel : ℕ) (h : Nodes) (nod root : Ptr) :
    Option (Ptr × Ptr × Nodes × Ptr) := do
  let n ← h nod
  let (x, nnew, pnext, h) ←
    (if n.left = .sentl then pure (n.right, n.right, Ptr.null, h)
    else if n.right = .sentl then pure (n.left, n.left, Ptr.null, h)
    else do
      let next ← fftreeMin fuel h n.right
      let x := (← h next).right
      let h ← detachNext h nod next x
      let h ← linkLeftchild h next (← h nod).left
      pure (x, next, next, h))
  let (h, root) ← relinkParent h root nod nnew
  let h ← h.modify nod fun n =>
    { n with left := .null, right := .null, parent := .null, key := 0 }
  pure (x, pnext, h, root)

/-- A round of the loop of `ffrbt_rm` once the sibling `sib` of `x` is black. Returns the
memory, the root, and whether the repair is finished. -/
def removeBlackSib (d : Dir) (h : Nodes) (root p sib : Ptr) : Option (Nodes × Ptr × Bool) := do
  let sn ← h sib
  let near ← h (sn.child d)
  let far ← h (sn.child d.other)
  if near.color = .red ∨ far.color = .red then do
    let (h, root, sib) ←
      (if far.color = .black then do
        let h ← setColor h (sn.child d) .black
        let h ← setColor h sib .red
        let (h, root) ← rotate d.other h root sib
        pure (h, root, (← h p).child d.other)
      else pure (h, root, sib))
    let h ← setColor h sib (← h p).color
    let h ← setColor h p .black
    let h ← setColor h ((← h sib).child d.other) .black
    let (h, root) ← rotate d h root p
    pure (h, root, true)
  else do
    -- both children of 'sib' are black
    let h ← setColor h sib .red
    pure (h, root, false)

/-- One round of the loop of `ffrbt_rm` where `x` is the child of `p` on the side `d`: a red
sibling is rotated away first. -/
def removeSide (d : Dir) (h : Nodes) (root p : Ptr) : Option (Nodes × Ptr × Bool) := do
  let sib := (← h p).child d.other
  let sibColor := (← h sib).color
  let (h, root, sib) ←
    (if sibColor = .red then do
      let h ← setColor h sib .black
      let h ← setColor h p .red
      let (h, root) ← rotate d h root p
      pure (h, root, (← h p).child d.other)
    else pure (h, root, sib))
  removeBlackSib d h root p sib

/-- The loop of `ffrbt_rm`. Returns the memory, the root and the final `x`. -/
def removeFixup : ℕ → Nodes → Ptr → Ptr → Option (Nodes × Ptr × Ptr)
  | 0, _, _, _ => none
  | fuel + 1, h, root, x =>
    if x = root then pure (h, root, x)
    else do
      let xn ← h x
      if xn.color = .red then pure (h, root, x)
      else do
        let p := xn.parent
        let pn ← h p
        let (h, root, fin) ←
          (if x = pn.left then removeSide .left h root p else removeSide .right h root p)
        if fin then pure (h, root, root) else removeFixup fuel h root p

/-- The colour that `ffrbt_rm` takes out of the tree: that of the node, or of its successor,
which gets the node's colour instead. -/
def exchangeColors (h : Nodes) (nodColor : Color) (next : Ptr) : Option (Color × Nodes) := do
  if next = .null then pure (nodColor, h)
  else do
    -- exchange colors of the node and its successor
    let clr := (← h next).color
    let h ← setColor h next nodColor
    pure (clr, h)

/-- `ffrbt_rm`. -/
def ffrbtRm (tr : Ffrbtree) (nod : Ptr) : Option Ffrbtree := do
  guard (tr.len ≠ 0)
  let (x, next, h, root) ← treeRm (tr.len + 1) tr.nodes nod tr.root
  let (clr, h) ← exchangeColors h (← h nod).color next
  let (h, root, x) ←
    (if clr = .red then some (h, root, x) else removeFixup (tr.len + 1) h root x)
  let h ← setColor h x .black
  pure { len := tr.len - 1, root := root, nodes := h }

/-- `ffrbt_init`, on memory that holds the sentinel. -/
def ffrbtInit (h : Nodes) : Option Ffrbtree := do
  let h ← setColor h .sentl .black
  pure { len := 0, root := .sentl, nodes := h }

end FF

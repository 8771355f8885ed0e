import Gandr.Lib.LinkedTree

/-! The red-black tree macros of `gd_tree.h` on the links of the nodes. A macro
that comes in two mirror images, and a branch that does, is written once with
the side as a parameter. The result is `none` where the code would follow a null
pointer, and where a loop does not end within the rounds that `fuel` allows.
`RB_AUGMENT` does nothing in this program. -/

namespace Gandr.RbTree

open RedBlack

abbrev Ptr := ℕ

/-- `RB_SET`. -/
def rbSet (h : Links) (elm parent : Ptr) : Links :=
  (((h.setParent elm parent).setChild .right elm 0).setChild .left elm 0).setColor elm .red

/-- `RB_SET_BLACKRED`. -/
def rbSetBlackRed (h : Links) (black red : Ptr) : Links :=
  (h.setColor black .black).setColor red .red

/-- The link to `elm` in its parent, or in the head, becomes one to `new`. -/
def replaceChild (h : Links) (parent elm new : Ptr) : Links :=
  if parent ≠ 0 then
    if elm = h.child .left parent then h.setChild .left parent new
    else h.setChild .right parent new
  else h.setRoot new

/-- The body of `RB_ROTATE_LEFT` and `RB_ROTATE_RIGHT`; `elm` moves to side `s`. -/
def rbRotate (s : Side) (h : Links) (elm : Ptr) : Option Links :=
  let tmp := h.child s.other elm
  if tmp = 0 then none
  else
    let h := h.setChild s.other elm (h.child s tmp)
    let h := if h.child s.other elm ≠ 0 then h.setParent (h.child s tmp) elm else h
    let h := h.setParent tmp (h.parent elm)
    let h := replaceChild h (h.parent elm) elm tmp
    let h := h.setChild s tmp elm
    some (h.setParent elm tmp)

/-- `RB_ROTATE_LEFT`. -/
def rbRotateLeft (h : Links) (elm : Ptr) : Option Links := rbRotate .left h elm

/-- `RB_ROTATE_RIGHT`. -/
def rbRotateRight (h : Links) (elm : Ptr) : Option Links := rbRotate .right h elm

/-- `RB_INSERT_COLOR`. -/
def rbInsertColor : ℕ → Links → Ptr → Option Links
  | 0, _, _ => none
  | fuel + 1, h, elm =>
    let parent := h.parent elm
    if parent ≠ 0 ∧ h.color parent = .red then
      let gparent := h.parent parent
      if gparent = 0 then none
      else
        let s := if parent = h.child .left gparent then Side.left else .right
        let tmp := h.child s.other gparent
        if tmp ≠ 0 ∧ h.color tmp = .red then
          rbInsertColor fuel (rbSetBlackRed (h.setColor tmp .black) parent gparent) gparent
        else if h.child s.other parent = elm then do
          let h ← rbRotate s h parent
          let h ← rbRotate s.other (rbSetBlackRed h elm gparent) gparent
          rbInsertColor fuel h parent
        else do
          let h ← rbRotate s.other (rbSetBlackRed h parent gparent) gparent
          rbInsertColor fuel h elm
    else some (h.setColor h.root .black)

/-- A null pointer or a black node. -/
def IsBlack (h : Links) (p : Ptr) : Prop := p = 0 ∨ h.color p = .black

instance (h : Links) (p : Ptr) : Decidable (IsBlack h p) := inferInstanceAs (Decidable (_ ∨ _))

/-- The last rotation of `RB_REMOVE_COLOR`, where `tmp` has a red child on the
far side. -/
def removeRotate (s : Side) (h : Links) (parent tmp : Ptr) : Option Links :=
  let h := (h.setColor tmp (h.color parent)).setColor parent .black
  let h := if h.child s.other tmp ≠ 0 then h.setColor (h.child s.other tmp) .black else h
  (rbRotate s h parent).map fun h => if h.root ≠ 0 then h.setColor h.root .black else h

/-- `RB_REMOVE_COLOR`. After its last rotation the loop is left with the root. -/
def rbRemoveColor : ℕ → Links → Ptr → Ptr → Option Links
  | 0, _, _, _ => none
  | fuel + 1, h, parent, elm =>
    if IsBlack h elm ∧ elm ≠ h.root then
      if parent = 0 then none
      else do
        let s := if h.child .left parent = elm then Side.left else .right
        let tmp := h.child s.other parent
        if tmp = 0 then none
        else
          let h ← if h.color tmp = .red then rbRotate s (rbSetBlackRed h tmp parent) parent
            else some h
          let tmp := h.child s.other parent
          if tmp = 0 then none
          else if IsBlack h (h.child .left tmp) ∧ IsBlack h (h.child .right tmp) then
            let h := h.setColor tmp .red
            rbRemoveColor fuel h (h.parent parent) parent
          else if IsBlack h (h.child s.other tmp) then
            let near := h.child s tmp
            let h := if near ≠ 0 then h.setColor near .black else h
            let h ← rbRotate s.other (h.setColor tmp .red) tmp
            let tmp := h.child s.other parent
            if tmp = 0 then none else removeRotate s h parent tmp
          else removeRotate s h parent tmp
    else some (if elm ≠ 0 then h.setColor elm .black else h)

/-- Put `child` in the place of `elm`, which has no other child. -/
def unlink (h : Links) (elm child : Ptr) : Links :=
  let parent := h.parent elm
  let h := if child ≠ 0 then h.setParent child parent else h
  replaceChild h parent elm child

/-- The nodes on side `s` from `elm` on, to the last. -/
def descend (s : Side) (h : Links) : ℕ → Ptr → Option Ptr
  | 0, _ => none
  | fuel + 1, elm => if h.child s elm ≠ 0 then descend s h fuel (h.child s elm) else some elm

/-- The node `elm`, unlinked, takes the links of `old` and its place. -/
def substitute (h : Links) (elm old : Ptr) : Links :=
  let h := ((h.setChild .left elm (h.child .left old)).setChild .right elm
    (h.child .right old)).setParent elm (h.parent old)
  let h := h.setColor elm (h.color old)
  let h := replaceChild h (h.parent old) old elm
  let h := h.setParent (h.child .left old) elm
  if h.child .right old ≠ 0 then h.setParent (h.child .right old) elm else h

/-- `RB_REMOVE`. -/
def rbRemove (fuel : ℕ) (h : Links) (old : Ptr) : Option Links :=
  if h.child .left old = 0 ∨ h.child .right old = 0 then
    let child := if h.child .left old = 0 then h.child .right old else h.child .left old
    let parent := h.parent old
    let color := h.color old
    let h := unlink h old child
    if color = .black then rbRemoveColor fuel h parent child else some h
  else do
    let elm ← descend .left h fuel (h.child .right old)
    let child := h.child .right elm
    let color := h.color elm
    let parent := h.parent elm
    let h := unlink h elm child
    let parent := if h.parent elm = old then elm else parent
    let h := substitute h elm old
    if color = .black then rbRemoveColor fuel h parent child else some h

/-- The search loop of `RB_INSERT`, from the node `tmp` on: the node that is
found, the last node that was compared and the result of that comparison. -/
def search (cmp : Ptr → ℤ) (h : Links) : ℕ → Ptr → Ptr → ℤ → Option (Ptr × Ptr × ℤ)
  | 0, tmp, parent, comp => if tmp = 0 then some (0, parent, comp) else none
  | fuel + 1, tmp, parent, comp =>
    if tmp = 0 then some (0, parent, comp)
    else if cmp tmp < 0 then search cmp h fuel (h.child .left tmp) tmp (cmp tmp)
    else if cmp tmp > 0 then search cmp h fuel (h.child .right tmp) tmp (cmp tmp)
    else some (tmp, tmp, cmp tmp)

/-- `RB_INSERT`: the node of equal key, or null and the new links. -/
def rbInsert (cmp : Ptr → Ptr → ℤ) (fuel : ℕ) (h : Links) (elm : Ptr) :
    Option (Ptr × Links) := do
  let (tmp, parent, comp) ← search (cmp elm) h fuel h.root 0 0
  if tmp ≠ 0 then some (tmp, h)
  else
    let h := rbSet h elm parent
    let h := if parent ≠ 0 then
        h.setChild (if comp < 0 then .left else .right) parent elm
      else h.setRoot elm
    (rbInsertColor fuel h elm).map fun h => (0, h)

/-- `RB_FIND`, whose loop is that of `RB_INSERT`. -/
def rbFind (cmp : Ptr → ℤ) (fuel : ℕ) (h : Links) : Option Ptr :=
  (search cmp h fuel h.root 0 0).map fun r => r.1

/-- The loop of `RB_NFIND`. -/
def nfindFrom (cmp : Ptr → ℤ) (h : Links) : ℕ → Ptr → Ptr → Option Ptr
  | 0, tmp, res => if tmp = 0 then some res else none
  | fuel + 1, tmp, res =>
    if tmp = 0 then some res
    else if cmp tmp < 0 then nfindFrom cmp h fuel (h.child .left tmp) tmp
    else if cmp tmp > 0 then nfindFrom cmp h fuel (h.child .right tmp) res
    else some tmp

/-- `RB_NFIND`. -/
def rbNfind (cmp : Ptr → ℤ) (fuel : ℕ) (h : Links) : Option Ptr := nfindFrom cmp h fuel h.root 0

/-- Climb as long as `elm` is the child on side `s`; the parent of the last. -/
def climb (s : Side) (h : Links) : ℕ → Ptr → Option Ptr
  | 0, _ => none
  | fuel + 1, elm =>
    if h.parent elm ≠ 0 ∧ elm = h.child s (h.parent elm) then climb s h fuel (h.parent elm)
    else some (h.parent elm)

/-- The body of `RB_NEXT` and `RB_PREV`, which goes to side `s`. -/
def rbStep (s : Side) (fuel : ℕ) (h : Links) (elm : Ptr) : Option Ptr :=
  if h.child s elm ≠ 0 then descend s.other h fuel (h.child s elm)
  else if h.parent elm ≠ 0 ∧ elm = h.child s.other (h.parent elm) then some (h.parent elm)
  else climb s h fuel elm

/-- `RB_NEXT`. -/
def rbNext (fuel : ℕ) (h : Links) (elm : Ptr) : Option Ptr := rbStep .right fuel h elm

/-- `RB_PREV`. -/
def rbPrev (fuel : ℕ) (h : Links) (elm : Ptr) : Option Ptr := rbStep .left fuel h elm

/-- `RB_MINMAX`; the side is that of the extreme. -/
def rbMinMax (s : Side) (fuel : ℕ) (h : Links) : Option Ptr :=
  if h.root = 0 then some 0 else descend s h fuel h.root

/-- `RB_MIN`. -/
def rbMin (fuel : ℕ) (h : Links) : Option Ptr := rbMinMax .left fuel h

/-- `RB_MAX`. -/
def rbMax (fuel : ℕ) (h : Links) : Option Ptr := rbMinMax .right fuel h

/-- The nodes that `RB_FOREACH` visits from `x` on, `RB_NEXT` being bounded by
`fuel` and the loop by `rounds`. -/
def foreachFrom (s : Side) (fuel : ℕ) (h : Links) : ℕ → Ptr → Option (List Ptr)
  | 0, _ => none
  | rounds + 1, x =>
    if x = 0 then some []
    else do
      let next ← rbStep s fuel h x
      let rest ← foreachFrom s fuel h rounds next
      some (x :: rest)

/-- `RB_FOREACH`. -/
def rbForeach (fuel rounds : ℕ) (h : Links) : Option (List Ptr) := do
  let x ← rbMin fuel h
  foreachFrom .right fuel h rounds x

/-- `RB_FOREACH_REVERSE`. -/
def rbForeachReverse (fuel rounds : ℕ) (h : Links) : Option (List Ptr) := do
  let x ← rbMax fuel h
  foreachFrom .left fuel h rounds x

end Gandr.RbTree

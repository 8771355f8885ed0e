import Gandr.Lib.Strings

/-! The device tree of `bal/device/dt/dt_tree.c` and its construction from a
flattened one by `add_device_fdt` of `bal/device/dt/dt_system.c`. A block is
named by the call of `malloc` that made it. A flattened tree is what `libfdt`
iterates; what the code prints is left out. -/

namespace Gandr.DeviceTree

abbrev Block := ℕ

structure DtProperty where
  valueLen : ℕ
  name : CString
  value : Block

/-- A node; the red-black trees are lists in the order of `strcmp`. -/
structure DtNode where
  children : List Block
  properties : List Block
  parent : Option Block
  boundDevice : Option ℕ
  name : CString

structure Heap where
  /-- the number of calls of `malloc` so far -/
  calls : ℕ
  node : Block → DtNode
  property : Block → DtProperty
  value : Block → Buffer UInt8

/-- Whether a call of `malloc` for so many bytes is answered with a block. -/
abbrev Allocator := ℕ → ℕ → Bool

def Heap.malloc (A : Allocator) (size : ℕ) (h : Heap) : Option Block × Heap :=
  (if A h.calls size then some h.calls else none, { h with calls := h.calls + 1 })

def Heap.setNode (h : Heap) (n : Block) (v : DtNode) : Heap :=
  { h with node := Function.update h.node n v }

def Heap.setProperty (h : Heap) (p : Block) (v : DtProperty) : Heap :=
  { h with property := Function.update h.property p v }

/-- `memcpy` of so many bytes to the start of a block. -/
def Heap.fill (h : Heap) (b : Block) (src : Buffer UInt8) (n : ℕ) : Heap :=
  { h with value := Function.update h.value b ((h.value b).memcpy 0 src 0 n) }

def Heap.realloc (A : Allocator) (b : Block) (old size : ℕ) (h : Heap) :
    Option Block × Heap :=
  match h.malloc A size with
  | (none, h) => (none, h)
  | (some b', h) => (some b', h.fill b' (h.value b) (min old size))

section Links

variable {α : Type} (name : α → CString)

/-- `RB_FIND` -/
def rbFind (tree : List α) (key : CString) : Option α := tree.find? fun x => name x = key

/-- `RB_INSERT`; an element of the same name stays alone. -/
def rbInsert (tree : List α) (elm : α) : List α :=
  match rbFind name tree (name elm) with
  | some _ => tree
  | none =>
    tree.takeWhile (fun x => decide (name x < name elm)) ++
      elm :: tree.dropWhile fun x => decide (name x < name elm)

end Links

def dtNodeFindChild (h : Heap) (parent : Block) (name : CString) : Option Block :=
  rbFind (fun c => (h.node c).name) (h.node parent).children name

def dtNodeFindProperty (h : Heap) (node : Block) (name : CString) : Option Block :=
  rbFind (fun p => (h.property p).name) (h.node node).properties name

/-- `sizeof (struct dt_node)` with pointers of `w` bytes. -/
def sizeofNode (w : ℕ) : ℕ := 9 * w

/-- `sizeof (struct dt_property)` with pointers of `w` bytes. -/
def sizeofProperty (w : ℕ) : ℕ := 7 * w

def linkChild (h : Heap) (parent n : Block) : Heap :=
  let v := h.node parent
  h.setNode parent { v with children := rbInsert (fun c => (h.node c).name) v.children n }

def dtNodeAlloc (w : ℕ) (A : Allocator) (parent : Option Block) (name : CString) (h : Heap) :
    Option Block × Heap :=
  match h.malloc A (sizeofNode w + name.length + 1) with
  | (none, h) => (none, h)
  | (some n, h) =>
    let h := h.setNode n
      { children := [], properties := [], parent := parent, boundDevice := none, name := name }
    (some n, match parent with
      | some parent => linkChild h parent n
      | none => h)

def linkProperty (h : Heap) (n p : Block) : Heap :=
  let v := h.node n
  h.setNode n { v with properties := rbInsert (fun q => (h.property q).name) v.properties p }

/-- The last lines of `dt_node_set_property`. -/
def storeValue (h : Heap) (p : Block) (value : Buffer UInt8) (len : ℕ) : Heap :=
  (h.setProperty p { h.property p with valueLen := len }).fill (h.property p).value value len

def dtNodeSetProperty (w : ℕ) (A : Allocator) (n : Block) (name : CString)
    (value : Buffer UInt8) (len : ℕ) (h : Heap) : Option Block × Heap :=
  match dtNodeFindProperty h n name with
  | none =>
    match h.malloc A len with
    | (none, h) => (none, h)
    | (some vp, h) =>
      match h.malloc A (sizeofProperty w + name.length + 1) with
      -- `vp` is freed
      | (none, h) => (none, h)
      | (some p, h) =>
        let h := h.setProperty p { valueLen := 0, name := name, value := vp }
        (some p, storeValue (linkProperty h n p) p value len)
  | some p =>
    if (h.property p).valueLen ≠ len then
      match h.realloc A (h.property p).value (h.property p).valueLen len with
      | (none, h) => (none, h)
      | (some vp, h) =>
        (some p, storeValue (h.setProperty p { h.property p with value := vp }) p value len)
    else (some p, storeValue h p value len)

/-- A property of a flattened tree: its name and its data. -/
structure FdtProperty where
  name : CString
  data : List UInt8

def FdtProperty.bytes (prop : FdtProperty) : Buffer UInt8 := fun i => (prop.data[i]?).getD 0

inductive FdtNode where
  | node (name : CString) (properties : List FdtProperty) (subnodes : List FdtNode)

namespace FdtNode

def name : FdtNode → CString
  | node name _ _ => name

def properties : FdtNode → List FdtProperty
  | node _ properties _ => properties

def subnodes : FdtNode → List FdtNode
  | node _ _ subnodes => subnodes

end FdtNode

def outOfMemoryNode (name : CString) : CString :=
  .ofString "Out of memory enumerating node \"" ++ name ++ .ofString "\"\n"

def outOfMemoryProperty (name property : CString) : CString :=
  .ofString "Out of memory allocating \"" ++ name ++ .ofString "\":\"" ++ property ++
    .ofString "\""

/-- The loop of `add_device_fdt` over the properties of a node. -/
def propertyLoop (w : ℕ) (A : Allocator) (n : Block) (name : CString) :
    List FdtProperty → Heap → Except CString Heap
  | [], h => .ok h
  | prop :: rest, h =>
    match dtNodeSetProperty w A n prop.name prop.bytes prop.data.length h with
    | (none, _) => .error (outOfMemoryProperty name prop.name)
    | (some _, h) => propertyLoop w A n name rest h

mutual

/-- The error is the text of the panic. -/
def addDeviceFdt (w : ℕ) (A : Allocator) (parent : Option Block) :
    FdtNode → Heap → Except CString (Block × Heap)
  | .node name properties subnodes, h =>
    match dtNodeAlloc w A parent name h with
    | (none, _) => .error (outOfMemoryNode name)
    | (some n, h) => do
      let h ← propertyLoop w A n name properties h
      let h ← subnodeLoop w A n subnodes h
      return (n, h)

def subnodeLoop (w : ℕ) (A : Allocator) (n : Block) :
    List FdtNode → Heap → Except CString Heap
  | [], h => .ok h
  | sub :: rest, h => do
    let r ← addDeviceFdt w A (some n) sub h
    subnodeLoop w A n rest r.2

end

section Find

variable {α : Type} {name : α → CString} {tree tree' : List α} {x : α} {key : CString}

theorem rbFind_eq_none : rbFind name tree key = none ↔ key ∉ tree.map name := by
  simp [rbFind, List.find?_eq_none]

theorem rbFind_some (h : rbFind name tree key = some x) : x ∈ tree ∧ name x = key := by
  have hk : name x = key := by simpa using List.find?_some h
  exact ⟨List.mem_of_find?_eq_some h, hk⟩

/-- The element of a name is found, where names are distinct. -/
theorem rbFind_of_mem (hd : (tree.map name).Nodup) (hx : x ∈ tree) :
    rbFind name tree (name x) = some x := by
  cases hf : rbFind name tree (name x) with
  | none => exact absurd (List.mem_map_of_mem hx) (rbFind_eq_none.mp hf)
  | some y =>
    obtain ⟨hy, hname⟩ := rbFind_some hf
    rw [List.inj_on_of_nodup_map hd hy hx hname]

theorem rbFind_perm (hp : tree.Perm tree') (hd : (tree.map name).Nodup) :
    rbFind name tree key = rbFind name tree' key := by
  have hd' : (tree'.map name).Nodup := (hp.map name).nodup_iff.mp hd
  cases hf : rbFind name tree' key with
  | none =>
    rw [rbFind_eq_none, (hp.map name).mem_iff]
    exact rbFind_eq_none.mp hf
  | some x =>
    obtain ⟨hx, rfl⟩ := rbFind_some hf
    exact rbFind_of_mem hd (hp.mem_iff.mpr hx)

theorem rbInsert_perm (hx : name x ∉ tree.map name) : (rbInsert name tree x).Perm (x :: tree) := by
  rw [rbInsert, rbFind_eq_none.mpr hx]
  refine List.perm_middle.trans ?_
  rw [List.takeWhile_append_dropWhile]

end Find

end Gandr.DeviceTree

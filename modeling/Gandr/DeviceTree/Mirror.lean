import Gandr.DeviceTree.Tree

/-! The device tree mirrors the flattened tree it is made from, and it is made
whenever every request for memory is answered. -/

namespace Gandr.DeviceTree

namespace FdtNode

def subnode (t : FdtNode) (name : CString) : Option FdtNode := rbFind FdtNode.name t.subnodes name

def property (t : FdtNode) (name : CString) : Option (List UInt8) :=
  (rbFind FdtProperty.name t.properties name).map FdtProperty.data

/-- The node at a path of names. -/
def follow (t : FdtNode) (path : List CString) : Option FdtNode := path.foldlM subnode t

/-- Siblings have distinct names, and so have the properties of a node. -/
inductive Distinct : FdtNode → Prop where
  | node {name : CString} {properties : List FdtProperty} {subnodes : List FdtNode}
      (hp : (properties.map FdtProperty.name).Nodup) (hs : (subnodes.map FdtNode.name).Nodup)
      (all : ∀ t ∈ subnodes, Distinct t) : Distinct (node name properties subnodes)

end FdtNode

/-- The node found by following a path of names. -/
def Heap.follow (h : Heap) (n : Block) (path : List CString) : Option Block :=
  path.foldlM (dtNodeFindChild h) n

/-- The value of a property, as many bytes as its length says. -/
def Heap.bytes (h : Heap) (p : Block) : List UInt8 :=
  (List.range (h.property p).valueLen).map (h.value (h.property p).value)

/-- The tree from `root` on has the nodes and properties of `t`, and every node
points to the one it is found under. -/
structure Reflects (h : Heap) (root : Block) (t : FdtNode) : Prop where
  found : ∀ path, (h.follow root path).isSome ↔ (t.follow path).isSome
  parent : ∀ path n name c, h.follow root path = some n → dtNodeFindChild h n name = some c →
    (h.node c).parent = some n
  property : ∀ path n t', h.follow root path = some n → t.follow path = some t' →
    ∀ name, (dtNodeFindProperty h n name).map h.bytes = t'.property name

/-! ### The requests for memory -/

def propertyRequests (w : ℕ) (prop : FdtProperty) : List ℕ :=
  [prop.data.length, sizeofProperty w + prop.name.length + 1]

mutual

/-- The sizes asked for, in order. -/
def requests (w : ℕ) : FdtNode → List ℕ
  | .node name properties subnodes =>
    (sizeofNode w + name.length + 1) :: (properties.flatMap (propertyRequests w) ++
      allRequests w subnodes)

def allRequests (w : ℕ) : List FdtNode → List ℕ
  | [] => []
  | t :: rest => requests w t ++ allRequests w rest

end

/-- All requests from call `k` on are answered. -/
def Answered (A : Allocator) : ℕ → List ℕ → Prop
  | _, [] => True
  | k, size :: rest => A k size = true ∧ Answered A (k + 1) rest

theorem answered_append (A : Allocator) (k : ℕ) (l₁ l₂ : List ℕ) :
    Answered A k (l₁ ++ l₂) ↔ Answered A k l₁ ∧ Answered A (k + l₁.length) l₂ := by
  induction l₁ generalizing k with
  | nil => simp [Answered]
  | cons size rest ih =>
    have hk : k + 1 + rest.length = k + (rest.length + 1) := by omega
    simp only [List.cons_append, Answered, ih, List.length_cons, and_assoc, hk]

/-- Where only an empty request may fail, the empty ones decide. -/
theorem answered_iff_empty {A : Allocator} (hA : ∀ k size, 0 < size → A k size = true) (k : ℕ)
    (l : List ℕ) : Answered A k l ↔ ∀ i, l[i]? = some 0 → A (k + i) 0 = true := by
  induction l generalizing k with
  | nil => simp [Answered]
  | cons size rest ih =>
    rw [Answered, ih]
    constructor
    · rintro ⟨hsize, hrest⟩ i hi
      cases i with
      | zero =>
        obtain rfl : size = 0 := by simpa using hi
        exact hsize
      | succ i =>
        have := hrest i (by simpa using hi)
        rwa [show k + 1 + i = k + (i + 1) by omega] at this
    · intro hall
      refine ⟨?_, fun i hi => ?_⟩
      · rcases Nat.eq_zero_or_pos size with rfl | hpos
        · exact hall 0 rfl
        · exact hA k size hpos
      · have := hall (i + 1) (by simpa using hi)
        rwa [show k + (i + 1) = k + 1 + i by omega] at this

/-! ### What a part of the heap represents -/

/-- The blocks before `h` made its next call are as they were, but for the links
of one node. -/
structure Kept (h h' : Heap) (linked : Option Block) : Prop where
  calls : h.calls ≤ h'.calls
  property : ∀ b < h.calls, h'.property b = h.property b
  value : ∀ b < h.calls, h'.value b = h.value b
  node : ∀ b < h.calls, some b ≠ linked → h'.node b = h.node b

theorem Kept.refl (h : Heap) (linked : Option Block) : Kept h h linked :=
  ⟨le_rfl, fun _ _ => rfl, fun _ _ => rfl, fun _ _ _ => rfl⟩

theorem Kept.trans {h₁ h₂ h₃ : Heap} {linked : Option Block} (h₁₂ : Kept h₁ h₂ linked)
    (h₂₃ : Kept h₂ h₃ linked) : Kept h₁ h₃ linked where
  calls := h₁₂.calls.trans h₂₃.calls
  property b hb := (h₂₃.property b (hb.trans_le h₁₂.calls)).trans (h₁₂.property b hb)
  value b hb := (h₂₃.value b (hb.trans_le h₁₂.calls)).trans (h₁₂.value b hb)
  node b hb hne := (h₂₃.node b (hb.trans_le h₁₂.calls) hne).trans (h₁₂.node b hb hne)

/-- Only blocks made since then change. -/
theorem Kept.fresh {h₁ h₂ h₃ : Heap} {linked : Option Block} {n : Block}
    (h₁₂ : Kept h₁ h₂ linked) (h₂₃ : Kept h₂ h₃ (some n)) (hn : h₁.calls ≤ n) :
    Kept h₁ h₃ linked where
  calls := h₁₂.calls.trans h₂₃.calls
  property b hb := (h₂₃.property b (hb.trans_le h₁₂.calls)).trans (h₁₂.property b hb)
  value b hb := (h₂₃.value b (hb.trans_le h₁₂.calls)).trans (h₁₂.value b hb)
  node b hb hne := by
    have hbn : some b ≠ some n := fun hbn =>
      absurd (Option.some.inj hbn) (Nat.ne_of_lt (hb.trans_le hn))
    exact (h₂₃.node b (hb.trans_le h₁₂.calls) hbn).trans (h₁₂.node b hb hne)

/-- A property made of blocks from `lo` to `hi`. -/
structure HasProperty (h : Heap) (lo hi : ℕ) (p : Block) (prop : FdtProperty) : Prop where
  block : lo ≤ p ∧ p < hi
  value : lo ≤ (h.property p).value ∧ (h.property p).value < hi
  name : (h.property p).name = prop.name
  bytes : h.bytes p = prop.data

def HasProperties (h : Heap) (lo hi : ℕ) (n : Block) (props : List FdtProperty) : Prop :=
  ∃ ps, (h.node n).properties.Perm ps ∧ List.Forall₂ (HasProperty h lo hi) ps props

mutual

/-- The tree from `n` on represents `t` in blocks from `lo` to `hi`. -/
def Mirrors (h : Heap) (lo hi : ℕ) (n : Block) : FdtNode → Prop
  | .node name properties subnodes =>
    (lo ≤ n ∧ n < hi) ∧ (h.node n).name = name ∧ HasProperties h lo hi n properties ∧
      ∃ cs, (h.node n).children.Perm cs ∧ ChildrenMirror h lo hi n cs subnodes

def ChildrenMirror (h : Heap) (lo hi : ℕ) (n : Block) (cs : List Block) :
    List FdtNode → Prop
  | [] => cs = []
  | t :: rest => ∃ c cs', cs = c :: cs' ∧ (h.node c).parent = some n ∧ Mirrors h lo hi c t ∧
      ChildrenMirror h lo hi n cs' rest

end

section Frame

variable {h h' : Heap} {linked : Option Block} {lo hi lo' hi' : ℕ} {n : Block}

theorem HasProperty.frame {p : Block} {prop : FdtProperty} (hp : HasProperty h lo hi p prop)
    (hk : Kept h h' linked) (hh : hi ≤ h.calls) (hl : lo' ≤ lo) (hu : hi ≤ hi') :
    HasProperty h' lo' hi' p prop := by
  have hprop := hk.property p (hp.block.2.trans_le hh)
  have hvalue := hk.value _ (hp.value.2.trans_le hh)
  refine ⟨⟨hl.trans hp.block.1, hp.block.2.trans_le hu⟩, ?_, ?_, ?_⟩
  · rw [hprop]
    exact ⟨hl.trans hp.value.1, hp.value.2.trans_le hu⟩
  · rw [hprop, hp.name]
  · rw [Heap.bytes, hprop, hvalue]
    exact hp.bytes

theorem HasProperties.frame {props : List FdtProperty} (hp : HasProperties h lo hi n props)
    (hk : Kept h h' linked) (hh : hi ≤ h.calls) (hl : lo' ≤ lo) (hu : hi ≤ hi')
    (hn : (h'.node n).properties = (h.node n).properties) :
    HasProperties h' lo' hi' n props := by
  obtain ⟨ps, hperm, hall⟩ := hp
  exact ⟨ps, hn ▸ hperm, hall.imp fun _ _ hprop => hprop.frame hk hh hl hu⟩

theorem Mirrors.block {t : FdtNode} (hm : Mirrors h lo hi n t) : lo ≤ n ∧ n < hi := by
  cases t with
  | node name properties subnodes => exact hm.1

theorem Mirrors.name {t : FdtNode} (hm : Mirrors h lo hi n t) : (h.node n).name = t.name := by
  cases t with
  | node name properties subnodes => exact hm.2.1

mutual

theorem Mirrors.frame (hk : Kept h h' linked) (hh : hi ≤ h.calls) (hl : lo' ≤ lo)
    (hu : hi ≤ hi') (hlinked : ∀ p, linked = some p → p < lo) :
    ∀ {n : Block} (t : FdtNode), Mirrors h lo hi n t → Mirrors h' lo' hi' n t
  | n, .node name properties subnodes, hm => by
    obtain ⟨hn, hname, hprops, cs, hperm, hcs⟩ := hm
    have hsame : h'.node n = h.node n := hk.node n (hn.2.trans_le hh) fun hp =>
      absurd (hlinked n hp.symm) (Nat.not_lt.mpr hn.1)
    refine ⟨⟨hl.trans hn.1, hn.2.trans_le hu⟩, hsame ▸ hname, ?_, cs, hsame ▸ hperm, ?_⟩
    · exact hprops.frame hk hh hl hu (by rw [hsame])
    · exact ChildrenMirror.frame hk hh hl hu hlinked subnodes hcs

theorem ChildrenMirror.frame (hk : Kept h h' linked) (hh : hi ≤ h.calls) (hl : lo' ≤ lo)
    (hu : hi ≤ hi') (hlinked : ∀ p, linked = some p → p < lo) :
    ∀ {n : Block} {cs : List Block} (ts : List FdtNode), ChildrenMirror h lo hi n cs ts →
      ChildrenMirror h' lo' hi' n cs ts
  | _, _, [], hm => hm
  | n, _, t :: rest, hm => by
    obtain ⟨c, cs', rfl, hparent, hc, hcs⟩ := hm
    have hsame : h'.node c = h.node c := hk.node c (hc.block.2.trans_le hh) fun hp =>
      absurd (hlinked c hp.symm) (Nat.not_lt.mpr hc.block.1)
    refine ⟨c, cs', rfl, hsame ▸ hparent, ?_, ?_⟩
    · exact Mirrors.frame hk hh hl hu hlinked t hc
    · exact ChildrenMirror.frame hk hh hl hu hlinked rest hcs

end

end Frame

/-! ### Making the properties of a node -/

theorem FdtProperty.bytes_eq (prop : FdtProperty) :
    (List.range prop.data.length).map prop.bytes = prop.data := by
  refine List.ext_getElem (by simp) fun i hi hi' => ?_
  simp [FdtProperty.bytes, hi']

section Build

variable {w : ℕ} {A : Allocator} {h : Heap} {n : Block}

theorem malloc_ok {size : ℕ} (ha : A h.calls size = true) :
    h.malloc A size = (some h.calls, { h with calls := h.calls + 1 }) := by
  rw [Heap.malloc, if_pos ha]

theorem malloc_null {size : ℕ} (ha : ¬ A h.calls size = true) :
    h.malloc A size = (none, { h with calls := h.calls + 1 }) := by
  rw [Heap.malloc, if_neg ha]

/-- The heap after a property that the node did not have. -/
def withProperty (h : Heap) (n : Block) (prop : FdtProperty) : Heap :=
  storeValue (linkProperty (({ h with calls := h.calls + 2 } : Heap).setProperty (h.calls + 1)
    { valueLen := 0, name := prop.name, value := h.calls }) n (h.calls + 1)) (h.calls + 1)
    prop.bytes prop.data.length

theorem dtNodeSetProperty_new {prop : FdtProperty}
    (hnew : dtNodeFindProperty h n prop.name = none)
    (ha : Answered A h.calls (propertyRequests w prop)) :
    dtNodeSetProperty w A n prop.name prop.bytes prop.data.length h =
      (some (h.calls + 1), withProperty h n prop) := by
  obtain ⟨hvalue, hprop, -⟩ := ha
  have hprop' : A ({ h with calls := h.calls + 1 } : Heap).calls
      (sizeofProperty w + prop.name.length + 1) = true := hprop
  rw [dtNodeSetProperty, hnew]
  simp only [malloc_ok hvalue, malloc_ok hprop']
  rfl

theorem dtNodeSetProperty_null {prop : FdtProperty}
    (hnew : dtNodeFindProperty h n prop.name = none)
    (ha : ¬ Answered A h.calls (propertyRequests w prop)) :
    (dtNodeSetProperty w A n prop.name prop.bytes prop.data.length h).1 = none := by
  rw [dtNodeSetProperty, hnew]
  by_cases hvalue : A h.calls prop.data.length = true
  · have hprop : ¬ A ({ h with calls := h.calls + 1 } : Heap).calls
        (sizeofProperty w + prop.name.length + 1) = true := fun hprop =>
      ha ⟨hvalue, hprop, trivial⟩
    simp only [malloc_ok hvalue, malloc_null hprop]
  · simp only [malloc_null hvalue]

theorem withProperty_kept (prop : FdtProperty) : Kept h (withProperty h n prop) (some n) where
  calls := Nat.le_add_right _ _
  property b hb := by
    have hb' : b ≠ h.calls + 1 := by omega
    simp [withProperty, storeValue, linkProperty, Heap.fill, Heap.setProperty, Heap.setNode, hb']
  value b hb := by
    have hb' : b ≠ h.calls := by omega
    simp [withProperty, storeValue, linkProperty, Heap.fill, Heap.setProperty, Heap.setNode, hb']
  node b hb hne := by
    have hb' : b ≠ n := fun hbn => hne (congrArg some hbn)
    simp [withProperty, storeValue, linkProperty, Heap.fill, Heap.setProperty, Heap.setNode, hb']

theorem withProperty_has (prop : FdtProperty) :
    HasProperty (withProperty h n prop) h.calls (h.calls + 2) (h.calls + 1) prop := by
  have hp : (withProperty h n prop).property (h.calls + 1) =
      { valueLen := prop.data.length, name := prop.name, value := h.calls } := by
    simp [withProperty, storeValue, linkProperty, Heap.fill, Heap.setProperty, Heap.setNode]
  have hv : ∀ i < prop.data.length, (withProperty h n prop).value h.calls i = prop.bytes i := by
    intro i hi
    simp [withProperty, storeValue, linkProperty, Heap.fill, Heap.setProperty, Heap.setNode,
      Buffer.memcpy, hi]
  refine ⟨⟨Nat.le_succ _, Nat.lt_succ_self _⟩, by rw [hp]; simp, by rw [hp], ?_⟩
  rw [Heap.bytes, hp]
  refine Eq.trans ?_ prop.bytes_eq
  exact List.map_congr_left fun i hi => hv i (List.mem_range.mp hi)

theorem HasProperties.names {lo hi : ℕ} {props : List FdtProperty}
    (hp : HasProperties h lo hi n props) :
    ((h.node n).properties.map fun q => (h.property q).name).Perm
      (props.map FdtProperty.name) := by
  obtain ⟨ps, hperm, hall⟩ := hp
  refine (hperm.map _).trans (List.Perm.of_eq ?_)
  clear hperm
  induction hall with
  | nil => rfl
  | cons hprop _ ih => simp [hprop.name, ih]

theorem HasProperties.lt {lo hi : ℕ} {props : List FdtProperty}
    (hp : HasProperties h lo hi n props) : ∀ q ∈ (h.node n).properties, q < hi := by
  obtain ⟨ps, hperm, hall⟩ := hp
  suffices hlt : ∀ q ∈ ps, q < hi from fun q hq => hlt q (hperm.mem_iff.mp hq)
  clear hperm
  induction hall with
  | nil => simp
  | cons hprop _ ih => simpa using ⟨hprop.block.2, ih⟩

/-- The node gains a link to the new property. -/
theorem withProperty_node {prop : FdtProperty} {props : List FdtProperty} {lo : ℕ}
    (hp : HasProperties h lo h.calls n props)
    (hnew : prop.name ∉ props.map FdtProperty.name) :
    ∃ ps, (withProperty h n prop).node n = { h.node n with properties := ps } ∧
      ps.Perm ((h.calls + 1) :: (h.node n).properties) := by
  let h₁ : Heap := ({ h with calls := h.calls + 2 } : Heap).setProperty (h.calls + 1)
    { valueLen := 0, name := prop.name, value := h.calls }
  refine ⟨rbInsert (fun q => (h₁.property q).name) (h.node n).properties (h.calls + 1), ?_, ?_⟩
  · simp [withProperty, storeValue, linkProperty, Heap.fill, Heap.setProperty, Heap.setNode, h₁]
  · have hnames : (h.node n).properties.map (fun q => (h₁.property q).name) =
        (h.node n).properties.map fun q => (h.property q).name := by
      refine List.map_congr_left fun q hq => ?_
      have hq' : q ≠ h.calls + 1 := by
        have := hp.lt q hq
        exact Nat.ne_of_lt (this.trans (Nat.lt_succ_self _))
      simp [h₁, Heap.setProperty, hq']
    refine rbInsert_perm ?_
    rw [hnames, hp.names.mem_iff]
    simpa [h₁, Heap.setProperty] using hnew

theorem withProperty_properties {prop : FdtProperty} {props : List FdtProperty} {lo : ℕ}
    (hlo : lo ≤ h.calls) (hp : HasProperties h lo h.calls n props)
    (hnew : prop.name ∉ props.map FdtProperty.name) :
    HasProperties (withProperty h n prop) lo (h.calls + 2) n (props ++ [prop]) := by
  obtain ⟨ps', hnode, hperm'⟩ := withProperty_node hp hnew
  obtain ⟨ps, hperm, hall⟩ := hp
  have hkept := withProperty_kept (h := h) (n := n) prop
  refine ⟨ps ++ [h.calls + 1], ?_, ?_⟩
  · rw [hnode]
    exact hperm'.trans ((hperm.cons _).trans (List.perm_append_singleton _ _).symm)
  · have hold : List.Forall₂ (HasProperty (withProperty h n prop) lo (h.calls + 2)) ps props :=
      hall.imp fun _ _ hprop => hprop.frame hkept le_rfl le_rfl (Nat.le_add_right _ _)
    refine List.rel_append hold (.cons ?_ .nil)
    have hprop := withProperty_has (h := h) (n := n) prop
    exact ⟨⟨hlo.trans hprop.block.1, hprop.block.2⟩, ⟨hlo.trans hprop.value.1, hprop.value.2⟩,
      hprop.name, hprop.bytes⟩

theorem HasProperties.find_none {lo hi : ℕ} {props : List FdtProperty} {name : CString}
    (hp : HasProperties h lo hi n props) (hnew : name ∉ props.map FdtProperty.name) :
    dtNodeFindProperty h n name = none := by
  rw [dtNodeFindProperty, rbFind_eq_none, hp.names.mem_iff]
  exact hnew

/-- What the loop over the properties makes. -/
structure HasMade (w : ℕ) (lo : ℕ) (n : Block) (done rest : List FdtProperty)
    (h h' : Heap) : Prop where
  calls : h'.calls = h.calls + (rest.flatMap (propertyRequests w)).length
  kept : Kept h h' (some n)
  properties : HasProperties h' lo h'.calls n (done ++ rest)
  node : ∃ ps, h'.node n = { h.node n with properties := ps }

theorem propertyLoop_ok {lo : ℕ} (name : CString) (done rest : List FdtProperty) (h : Heap)
    (hlo : lo ≤ h.calls) (hp : HasProperties h lo h.calls n done)
    (hd : ((done ++ rest).map FdtProperty.name).Nodup)
    (ha : Answered A h.calls (rest.flatMap (propertyRequests w))) :
    ∃ h', propertyLoop w A n name rest h = .ok h' ∧ HasMade w lo n done rest h h' := by
  induction rest generalizing done h with
  | nil => exact ⟨h, rfl, by simp, .refl h _, by simpa using hp, (h.node n).properties, rfl⟩
  | cons prop rest ih =>
    rw [List.flatMap_cons, answered_append] at ha
    have hnew : prop.name ∉ done.map FdtProperty.name := by
      intro hmem
      rw [List.map_append, List.nodup_append] at hd
      exact hd.2.2 _ hmem _ (by simp) rfl
    obtain ⟨h', hrun, hmade⟩ := ih (done ++ [prop]) (withProperty h n prop)
      (hlo.trans (Nat.le_add_right _ 2)) (withProperty_properties hlo hp hnew)
      (by simpa using hd) ha.2
    obtain ⟨ps, hps, -⟩ := withProperty_node hp hnew
    obtain ⟨ps', hps'⟩ := hmade.node
    refine ⟨h', ?_, ?_, (withProperty_kept prop).trans hmade.kept, ?_, ps', ?_⟩
    · rw [propertyLoop, dtNodeSetProperty_new (hp.find_none hnew) ha.1]
      exact hrun
    · rw [hmade.calls, List.flatMap_cons, List.length_append, ← Nat.add_assoc]
      rfl
    · simpa using hmade.properties
    · rw [hps', hps]

theorem propertyLoop_error {lo : ℕ} (name : CString) (done rest : List FdtProperty) (h : Heap)
    (hlo : lo ≤ h.calls) (hp : HasProperties h lo h.calls n done)
    (hd : ((done ++ rest).map FdtProperty.name).Nodup)
    (ha : ¬ Answered A h.calls (rest.flatMap (propertyRequests w))) :
    ∃ e, propertyLoop w A n name rest h = .error e := by
  induction rest generalizing done h with
  | nil => exact absurd trivial ha
  | cons prop rest ih =>
    rw [List.flatMap_cons, answered_append] at ha
    have hnew : prop.name ∉ done.map FdtProperty.name := by
      intro hmem
      rw [List.map_append, List.nodup_append] at hd
      exact hd.2.2 _ hmem _ (by simp) rfl
    by_cases hprop : Answered A h.calls (propertyRequests w prop)
    · rw [propertyLoop, dtNodeSetProperty_new (hp.find_none hnew) hprop]
      exact ih (done ++ [prop]) (withProperty h n prop) (hlo.trans (Nat.le_add_right _ 2))
        (withProperty_properties hlo hp hnew) (by simpa using hd) fun hrest => ha ⟨hprop, hrest⟩
    · have hnull := dtNodeSetProperty_null (hp.find_none hnew) hprop
      refine ⟨outOfMemoryProperty name prop.name, ?_⟩
      rw [propertyLoop]
      split <;> simp_all

/-! ### Making a node -/

/-- The heap after a new node. -/
def withNode (h : Heap) (parent : Option Block) (name : CString) : Heap :=
  let h' := ({ h with calls := h.calls + 1 } : Heap).setNode h.calls
    { children := [], properties := [], parent := parent, boundDevice := none, name := name }
  match parent with
  | some parent => linkChild h' parent h.calls
  | none => h'

theorem dtNodeAlloc_ok {parent : Option Block} {name : CString}
    (ha : A h.calls (sizeofNode w + name.length + 1) = true) :
    dtNodeAlloc w A parent name h = (some h.calls, withNode h parent name) := by
  rw [dtNodeAlloc, malloc_ok ha]
  rfl

theorem dtNodeAlloc_null {parent : Option Block} {name : CString}
    (ha : ¬ A h.calls (sizeofNode w + name.length + 1) = true) :
    (dtNodeAlloc w A parent name h).1 = none := by
  rw [dtNodeAlloc, malloc_null ha]

theorem withNode_calls (parent : Option Block) (name : CString) :
    (withNode h parent name).calls = h.calls + 1 := by
  cases parent <;> rfl

theorem withNode_kept (parent : Option Block) (name : CString) :
    Kept h (withNode h parent name) parent where
  calls := by
    rw [withNode_calls]
    exact Nat.le_succ _
  property b hb := by cases parent <;> rfl
  value b hb := by cases parent <;> rfl
  node b hb hne := by
    have hb' : b ≠ h.calls := Nat.ne_of_lt hb
    cases parent with
    | none => simp [withNode, Heap.setNode, hb']
    | some p =>
      have hp : b ≠ p := fun hbp => hne (congrArg some hbp)
      simp [withNode, linkChild, Heap.setNode, hb', hp]

theorem withNode_node {parent : Option Block} {name : CString}
    (hp : ∀ p, parent = some p → p < h.calls) :
    (withNode h parent name).node h.calls =
      { children := [], properties := [], parent := parent, boundDevice := none
        name := name } := by
  cases parent with
  | none => simp [withNode, Heap.setNode]
  | some p =>
    have hne : h.calls ≠ p := (Nat.ne_of_lt (hp p rfl)).symm
    simp [withNode, linkChild, Heap.setNode, hne]

/-- The names of the children of a node. -/
def childNames (h : Heap) (n : Block) : List CString :=
  (h.node n).children.map fun c => (h.node c).name

theorem withNode_link {p : Block} (name : CString) (hp : p < h.calls)
    (hc : ∀ c ∈ (h.node p).children, c < h.calls) (hnew : name ∉ childNames h p) :
    ∃ cs, (withNode h (some p) name).node p = { h.node p with children := cs } ∧
      cs.Perm (h.calls :: (h.node p).children) := by
  let h₁ : Heap := ({ h with calls := h.calls + 1 } : Heap).setNode h.calls
    { children := [], properties := [], parent := some p, boundDevice := none, name := name }
  have hpne : p ≠ h.calls := Nat.ne_of_lt hp
  refine ⟨rbInsert (fun c => (h₁.node c).name) (h.node p).children h.calls, ?_, ?_⟩
  · simp [withNode, linkChild, Heap.setNode, hpne, h₁]
  · have hnames : (h.node p).children.map (fun c => (h₁.node c).name) = childNames h p := by
      refine List.map_congr_left fun c hmem => ?_
      have hne : c ≠ h.calls := Nat.ne_of_lt (hc c hmem)
      simp [h₁, Heap.setNode, hne]
    refine rbInsert_perm ?_
    rw [hnames]
    simpa [h₁, Heap.setNode] using hnew

/-! ### Making the tree -/

/-- The children of `n` and the subnodes still to come have distinct names. -/
structure Room (h : Heap) (n : Block) (ts : List FdtNode) : Prop where
  block : n < h.calls
  children : ∀ c ∈ (h.node n).children, c < h.calls
  distinct : (childNames h n ++ ts.map FdtNode.name).Nodup

/-- What `add_device_fdt` makes. -/
structure Built (w : ℕ) (parent : Option Block) (t : FdtNode) (h h' : Heap) : Prop where
  calls : h'.calls = h.calls + (requests w t).length
  kept : Kept h h' parent
  mirrors : Mirrors h' h.calls h'.calls h.calls t
  under : (h'.node h.calls).parent = parent
  linked : ∀ p, parent = some p → ∃ cs, h'.node p = { h.node p with children := cs } ∧
    cs.Perm (h.calls :: (h.node p).children)

/-- What the loop over the subnodes makes. -/
structure Filled (w : ℕ) (n : Block) (ts : List FdtNode) (h h' : Heap) : Prop where
  calls : h'.calls = h.calls + (allRequests w ts).length
  kept : Kept h h' (some n)
  children : ∃ cs cs', h'.node n = { h.node n with children := cs' } ∧
    cs'.Perm (cs ++ (h.node n).children) ∧ ChildrenMirror h' h.calls h'.calls n cs ts

theorem Built.name {parent : Option Block} {t : FdtNode} {h' : Heap} (hb : Built w parent t h h')
    {b : Block} (hlt : b < h.calls) : (h'.node b).name = (h.node b).name := by
  by_cases hp : some b = parent
  · obtain ⟨cs, hnode, -⟩ := hb.linked b hp.symm
    rw [hnode]
  · rw [hb.kept.node b hlt hp]

/-- The subnodes after the one just made still have room. -/
theorem Room.next {t : FdtNode} {ts : List FdtNode} {h' : Heap} (hr : Room h n (t :: ts))
    (hb : Built w (some n) t h h') : Room h' n ts := by
  obtain ⟨cs, hnode, hperm⟩ := hb.linked n rfl
  have hk := hb.mirrors.block
  have hchild : (h'.node n).children.Perm (h.calls :: (h.node n).children) := by
    rw [hnode]
    exact hperm
  have hnames : (childNames h' n).Perm (t.name :: childNames h n) := by
    refine (hchild.map _).trans (List.Perm.of_eq ?_)
    rw [List.map_cons, hb.mirrors.name]
    congr 1
    exact List.map_congr_left fun c hc => hb.name (hr.children c hc)
  refine ⟨hr.block.trans_le hb.kept.calls, fun c hc => ?_, ?_⟩
  · rcases List.mem_cons.mp (hchild.mem_iff.mp hc) with rfl | hc
    · exact hk.2
    · exact (hr.children c hc).trans_le hb.kept.calls
  · refine (List.Perm.nodup_iff ?_).mp hr.distinct
    refine List.Perm.trans ?_ (hnames.symm.append_right _)
    simp [List.perm_middle]

/-- A node with its properties, before its subnodes. -/
structure Entered (w : ℕ) (parent : Option Block) (t : FdtNode) (h h' : Heap) : Prop where
  calls : h'.calls = h.calls + 1 + (t.properties.flatMap (propertyRequests w)).length
  kept : Kept h h' parent
  node : ∃ ps, h'.node h.calls =
    { children := [], properties := ps, parent := parent, boundDevice := none, name := t.name }
  properties : HasProperties h' h.calls h'.calls h.calls t.properties
  linked : ∀ p, parent = some p → ∃ cs, h'.node p = { h.node p with children := cs } ∧
    cs.Perm (h.calls :: (h.node p).children)

theorem Entered.lt {parent : Option Block} {t : FdtNode} {h' : Heap}
    (he : Entered w parent t h h') : h.calls < h'.calls := by
  have := he.calls
  omega

theorem Entered.room {parent : Option Block} {t : FdtNode} {h' : Heap}
    (he : Entered w parent t h h') (hd : (t.subnodes.map FdtNode.name).Nodup) :
    Room h' h.calls t.subnodes := by
  obtain ⟨ps, hn⟩ := he.node
  refine ⟨he.lt, ?_, ?_⟩
  · simp [hn]
  · simpa [childNames, hn] using hd

theorem withNode_empty {parent : Option Block} {name : CString}
    (hp : ∀ p, parent = some p → p < h.calls) :
    HasProperties (withNode h parent name) h.calls (withNode h parent name).calls h.calls [] := by
  refine ⟨[], ?_, .nil⟩
  rw [withNode_node hp]

theorem Room.head {t : FdtNode} {ts : List FdtNode} (hr : Room h n (t :: ts)) :
    Room h n [t] :=
  ⟨hr.block, hr.children, hr.distinct.sublist (by simp)⟩

theorem Room.fresh {t : FdtNode} (hr : Room h n [t]) : t.name ∉ childNames h n := by
  intro hmem
  have hd := hr.distinct
  rw [List.nodup_append] at hd
  exact hd.2.2 _ hmem _ (by simp) rfl

theorem enterNode_ok {parent : Option Block} (t : FdtNode)
    (hd : (t.properties.map FdtProperty.name).Nodup)
    (hroom : ∀ p, parent = some p → Room h p [t])
    (ha : Answered A (h.calls + 1) (t.properties.flatMap (propertyRequests w))) :
    ∃ h', propertyLoop w A h.calls t.name t.properties (withNode h parent t.name) = .ok h' ∧
      Entered w parent t h h' := by
  have hlt : ∀ p, parent = some p → p < h.calls := fun p hp => (hroom p hp).block
  have hk : Kept h (withNode h parent t.name) parent := withNode_kept parent t.name
  rw [← withNode_calls parent t.name] at ha
  obtain ⟨h', hrun, hmade⟩ := propertyLoop_ok t.name [] t.properties _ hk.calls
    (withNode_empty hlt) hd ha
  have hcalls := hmade.calls
  rw [withNode_calls] at hcalls
  obtain ⟨ps, hn⟩ := hmade.node
  rw [withNode_node hlt] at hn
  refine ⟨h', hrun, hcalls, hk.fresh hmade.kept le_rfl, ⟨ps, hn⟩, hmade.properties, ?_⟩
  rintro p rfl
  have hroom := hroom p rfl
  obtain ⟨cs, hnode, hperm⟩ :=
    withNode_link t.name hroom.block hroom.children hroom.fresh
  have hne : some p ≠ some h.calls := fun hp =>
    absurd (Option.some.inj hp) (Nat.ne_of_lt hroom.block)
  exact ⟨cs, (hmade.kept.node p (hroom.block.trans_le hk.calls) hne).trans hnode, hperm⟩

/-- A node is built once its subnodes are. -/
theorem Entered.built {parent : Option Block} {t : FdtNode} {h' h'' : Heap}
    (he : Entered w parent t h h') (hf : Filled w h.calls t.subnodes h' h'')
    (hp : ∀ p, parent = some p → p < h.calls) : Built w parent t h h'' := by
  obtain ⟨ps, hn⟩ := he.node
  obtain ⟨cs, cs', hn', hperm, hcs⟩ := hf.children
  have hname : (h''.node h.calls).name = t.name := by rw [hn', hn]
  have hprops : (h''.node h.calls).properties = (h'.node h.calls).properties := by rw [hn']
  have hchildren : (h''.node h.calls).children.Perm cs := by
    rw [hn', hn] at *
    simpa using hperm
  refine ⟨?_, he.kept.fresh hf.kept le_rfl, ?_, by rw [hn', hn], fun p hparent => ?_⟩
  · cases t with
    | node name properties subnodes =>
      rw [hf.calls, he.calls, requests, List.length_cons, List.length_append]
      simp only [FdtNode.properties, FdtNode.subnodes]
      omega
  · cases t with
    | node name properties subnodes =>
      exact ⟨⟨le_rfl, he.lt.trans_le hf.kept.calls⟩, hname,
        he.properties.frame hf.kept le_rfl le_rfl hf.kept.calls hprops, cs, hchildren,
        ChildrenMirror.frame (.refl h'' none) le_rfl he.kept.calls le_rfl (by simp) _ hcs⟩
  · obtain ⟨cs, hnode, hperm⟩ := he.linked p hparent
    have hlt := hp p hparent
    have hne : some p ≠ some h.calls := fun hp => absurd (Option.some.inj hp) (Nat.ne_of_lt hlt)
    exact ⟨cs, (hf.kept.node p (hlt.trans he.lt) hne).trans hnode, hperm⟩

mutual

theorem addDeviceFdt_ok : ∀ (t : FdtNode) (parent : Option Block) (h : Heap), t.Distinct →
    (∀ p, parent = some p → Room h p [t]) → Answered A h.calls (requests w t) →
    ∃ h', addDeviceFdt w A parent t h = .ok (h.calls, h') ∧ Built w parent t h h'
  | .node name properties subnodes, parent, h, .node hpd hsd hall, hroom, ⟨hnode, ha⟩ => by
    rw [answered_append] at ha
    obtain ⟨h₁, hrun₁, he⟩ := enterNode_ok (.node name properties subnodes) hpd hroom ha.1
    have hsubs : Answered A h₁.calls (allRequests w subnodes) := by
      rw [he.calls]
      exact ha.2
    obtain ⟨h₂, hrun₂, hf⟩ := subnodeLoop_ok subnodes h.calls h₁ hall (he.room hsd) hsubs
    refine ⟨h₂, ?_, he.built hf fun p hp => (hroom p hp).block⟩
    rw [addDeviceFdt, dtNodeAlloc_ok hnode]
    simp only [FdtNode.name, FdtNode.properties] at hrun₁
    simp only [hrun₁, hrun₂, bind, Except.bind, pure, Except.pure]

theorem subnodeLoop_ok : ∀ (ts : List FdtNode) (n : Block) (h : Heap), (∀ t ∈ ts, t.Distinct) →
    Room h n ts → Answered A h.calls (allRequests w ts) →
    ∃ h', subnodeLoop w A n ts h = .ok h' ∧ Filled w n ts h h'
  | [], n, h, _, _, _ => ⟨h, rfl, rfl, .refl h _, [], (h.node n).children, rfl, .refl _, rfl⟩
  | t :: rest, n, h, hd, hroom, ha => by
    rw [allRequests, answered_append] at ha
    obtain ⟨h₁, hrun₁, hb⟩ := addDeviceFdt_ok t (some n) h (hd t (by simp))
      (fun p hp => by cases hp; exact hroom.head) ha.1
    have hrest := ha.2
    rw [← hb.calls] at hrest
    obtain ⟨h₂, hrun₂, hf⟩ := subnodeLoop_ok rest n h₁ (fun s hs => hd s (by simp [hs]))
      (hroom.next hb) hrest
    obtain ⟨cs₁, hnode₁, hperm₁⟩ := hb.linked n rfl
    obtain ⟨cs, cs', hnode₂, hperm₂, hcs⟩ := hf.children
    refine ⟨h₂, ?_, ?_, hb.kept.trans hf.kept, h.calls :: cs, cs', ?_, ?_, ?_⟩
    · rw [subnodeLoop, hrun₁]
      exact hrun₂
    · rw [hf.calls, hb.calls, allRequests, List.length_append, Nat.add_assoc]
    · rw [hnode₂, hnode₁]
    · have hchild : (h₁.node n).children = cs₁ := by rw [hnode₁]
      rw [hchild] at hperm₂
      refine hperm₂.trans ((hperm₁.append_left cs).trans ?_)
      simp [List.perm_middle]
    · have hlinked : ∀ p, some n = some p → p < h.calls := by
        rintro p ⟨⟩
        exact hroom.block
      have hsame : h₂.node h.calls = h₁.node h.calls := hf.kept.node _ hb.mirrors.block.2 fun hp =>
        absurd (Option.some.inj hp) (Nat.ne_of_lt hroom.block).symm
      refine ⟨h.calls, cs, rfl, ?_, ?_, ?_⟩
      · rw [hsame, hb.under]
      · exact hb.mirrors.frame hf.kept le_rfl le_rfl hf.kept.calls hlinked
      · exact ChildrenMirror.frame (.refl h₂ none) le_rfl hb.kept.calls le_rfl (by simp) _ hcs

end

mutual

theorem addDeviceFdt_error : ∀ (t : FdtNode) (parent : Option Block) (h : Heap), t.Distinct →
    (∀ p, parent = some p → Room h p [t]) → ¬ Answered A h.calls (requests w t) →
    ∃ e, addDeviceFdt w A parent t h = .error e
  | .node name properties subnodes, parent, h, .node hpd hsd hall, hroom, ha => by
    by_cases hnode : A h.calls (sizeofNode w + name.length + 1) = true
    · rw [addDeviceFdt, dtNodeAlloc_ok hnode]
      by_cases hprops : Answered A (h.calls + 1) (properties.flatMap (propertyRequests w))
      · obtain ⟨h₁, hrun, he⟩ := enterNode_ok (.node name properties subnodes) hpd hroom hprops
        have hsubs : ¬ Answered A h₁.calls (allRequests w subnodes) := by
          rw [he.calls]
          exact fun hsubs => ha ⟨hnode, (answered_append ..).mpr ⟨hprops, hsubs⟩⟩
        obtain ⟨e, herror⟩ := subnodeLoop_error subnodes h.calls h₁ hall (he.room hsd) hsubs
        simp only [FdtNode.name, FdtNode.properties] at hrun
        exact ⟨e, by simp only [hrun, herror, bind, Except.bind]⟩
      · have hlt : ∀ p, parent = some p → p < h.calls := fun p hp => (hroom p hp).block
        rw [← withNode_calls parent name] at hprops
        obtain ⟨e, herror⟩ := propertyLoop_error name [] properties _
          (withNode_kept parent name).calls (withNode_empty hlt) hpd hprops
        exact ⟨e, by simp only [herror, bind, Except.bind]⟩
    · have hnull : (dtNodeAlloc w A parent name h).1 = none := dtNodeAlloc_null hnode
      refine ⟨outOfMemoryNode name, ?_⟩
      rw [addDeviceFdt]
      split <;> simp_all

theorem subnodeLoop_error : ∀ (ts : List FdtNode) (n : Block) (h : Heap),
    (∀ t ∈ ts, t.Distinct) → Room h n ts → ¬ Answered A h.calls (allRequests w ts) →
    ∃ e, subnodeLoop w A n ts h = .error e
  | [], _, _, _, _, ha => absurd trivial ha
  | t :: rest, n, h, hd, hroom, ha => by
    rw [allRequests, answered_append] at ha
    by_cases hone : Answered A h.calls (requests w t)
    · obtain ⟨h₁, hrun, hb⟩ := addDeviceFdt_ok t (some n) h (hd t (by simp))
        (fun p hp => by cases hp; exact hroom.head) hone
      have hrest : ¬ Answered A h₁.calls (allRequests w rest) := by
        rw [hb.calls]
        exact fun hrest => ha ⟨hone, hrest⟩
      obtain ⟨e, herror⟩ := subnodeLoop_error rest n h₁ (fun s hs => hd s (by simp [hs]))
        (hroom.next hb) hrest
      exact ⟨e, by simp only [subnodeLoop, hrun, bind, Except.bind, herror]⟩
    · obtain ⟨e, herror⟩ := addDeviceFdt_error t (some n) h (hd t (by simp))
        (fun p hp => by cases hp; exact hroom.head) hone
      exact ⟨e, by simp only [subnodeLoop, herror, bind, Except.bind]⟩

end

end Build

/-! ### Finding the nodes and properties -/

section Rel

variable {α β : Type} {r : α → β → Prop} {x : Option α} {y : Option β}

theorem rel_some {a : α} (h : Option.Rel r x y) (hx : x = some a) : ∃ b, y = some b ∧ r a b := by
  cases h with
  | some hr =>
    obtain rfl := Option.some.inj hx
    exact ⟨_, rfl, hr⟩
  | none => cases hx

theorem rel_none (h : Option.Rel r x y) (hx : x = none) : y = none := by
  cases h with
  | some hr => cases hx
  | none => rfl

theorem rel_isSome (h : Option.Rel r x y) : x.isSome = y.isSome := by
  cases h <;> rfl

end Rel

section Find

variable {h : Heap} {lo hi : ℕ} {n : Block}

theorem ChildrenMirror.names {cs : List Block} {ts : List FdtNode}
    (hm : ChildrenMirror h lo hi n cs ts) :
    cs.map (fun c => (h.node c).name) = ts.map FdtNode.name := by
  induction ts generalizing cs with
  | nil => rw [show cs = [] from hm]; rfl
  | cons t ts ih =>
    obtain ⟨c, cs', rfl, -, hc, hcs⟩ := hm
    rw [List.map_cons, List.map_cons, hc.name, ih hcs]

/-- A child is found where the subnode is. -/
theorem ChildrenMirror.find {cs : List Block} {ts : List FdtNode}
    (hm : ChildrenMirror h lo hi n cs ts) (name : CString) :
    Option.Rel (fun c t => (h.node c).parent = some n ∧ Mirrors h lo hi c t)
      (rbFind (fun c => (h.node c).name) cs name) (rbFind FdtNode.name ts name) := by
  induction ts generalizing cs with
  | nil =>
    rw [show cs = [] from hm]
    exact .none
  | cons t ts ih =>
    obtain ⟨c, cs', rfl, hparent, hc, hcs⟩ := hm
    have hname := hc.name
    by_cases hkey : t.name = name
    · simpa [rbFind, List.find?_cons, hname, hkey] using Option.Rel.some ⟨hparent, hc⟩
    · simpa [rbFind, List.find?_cons, hname, hkey] using ih hcs

theorem Mirrors.findChild {t : FdtNode} (hm : Mirrors h lo hi n t) (hd : t.Distinct)
    (name : CString) :
    Option.Rel (fun c s => (h.node c).parent = some n ∧ Mirrors h lo hi c s)
      (dtNodeFindChild h n name) (t.subnode name) := by
  obtain ⟨-, hsd, -⟩ := hd
  obtain ⟨-, -, -, cs, hperm, hcs⟩ := hm
  have hnodup : ((h.node n).children.map fun c => (h.node c).name).Nodup := by
    rw [(hperm.map _).nodup_iff, hcs.names]
    exact hsd
  rw [dtNodeFindChild, rbFind_perm hperm hnodup]
  exact hcs.find name

theorem Mirrors.findProperty {t : FdtNode} (hm : Mirrors h lo hi n t) (hd : t.Distinct)
    (name : CString) : (dtNodeFindProperty h n name).map h.bytes = t.property name := by
  obtain ⟨hpd, -, -⟩ := hd
  obtain ⟨-, -, hprops, -⟩ := hm
  have hnodup : ((h.node n).properties.map fun p => (h.property p).name).Nodup := by
    rw [hprops.names.nodup_iff]
    exact hpd
  obtain ⟨ps, hperm, hall⟩ := hprops
  rw [dtNodeFindProperty, rbFind_perm hperm hnodup, FdtNode.property, FdtNode.properties]
  clear hnodup hperm hpd
  induction hall with
  | nil => rfl
  | @cons p prop ps props hprop _ ih =>
    by_cases hkey : prop.name = name
    · simp [rbFind, hprop.name, hkey, hprop.bytes]
    · simpa [rbFind, List.find?_cons, hprop.name, hkey] using ih

theorem FdtNode.Distinct.subnode {t s : FdtNode} (hd : t.Distinct) {name : CString}
    (hs : t.subnode name = some s) : s.Distinct := by
  obtain ⟨-, -, hall⟩ := hd
  exact hall s (rbFind_some hs).1

/-- Following a path finds the node that mirrors the flattened one. -/
theorem Mirrors.follow {t : FdtNode} (hm : Mirrors h lo hi n t) (hd : t.Distinct)
    (path : List CString) :
    Option.Rel (fun m s => Mirrors h lo hi m s ∧ s.Distinct) (h.follow n path)
      (t.follow path) := by
  induction path generalizing n t with
  | nil => exact .some ⟨hm, hd⟩
  | cons name path ih =>
    have hfind := hm.findChild hd name
    simp only [Heap.follow, FdtNode.follow, List.foldlM_cons] at ih ⊢
    cases hc : dtNodeFindChild h n name with
    | none =>
      rw [rel_none hfind hc]
      exact .none
    | some c =>
      obtain ⟨s, hs, -, hmirrors⟩ := rel_some hfind hc
      rw [hs]
      exact ih hmirrors (hd.subnode hs)

theorem Mirrors.reflects {t : FdtNode} (hm : Mirrors h lo hi n t) (hd : t.Distinct) :
    Reflects h n t := by
  refine ⟨fun path => ?_, fun path m name c hpath hc => ?_, fun path m s hpath hs name => ?_⟩
  · rw [rel_isSome (hm.follow hd path)]
  · obtain ⟨s, -, hmirrors, hdistinct⟩ := rel_some (hm.follow hd path) hpath
    obtain ⟨-, -, hparent, -⟩ := rel_some (hmirrors.findChild hdistinct name) hc
    exact hparent
  · obtain ⟨s', hs', hmirrors, hdistinct⟩ := rel_some (hm.follow hd path) hpath
    obtain rfl : s = s' := Option.some.inj (hs.symm.trans hs')
    exact hmirrors.findProperty hdistinct name

end Find

/-- The tree is made and mirrors the flattened one exactly when no request for an
empty value goes unanswered. -/
theorem addDeviceFdt_reflects (w : ℕ) (A : Allocator) (t : FdtNode) (h : Heap)
    (hA : ∀ k size, 0 < size → A k size = true) (hd : t.Distinct) :
    (∃ root h', addDeviceFdt w A none t h = .ok (root, h') ∧ Reflects h' root t) ↔
      ∀ i, (requests w t)[i]? = some 0 → A (h.calls + i) 0 = true := by
  rw [← answered_iff_empty hA]
  constructor
  · rintro ⟨root, h', hrun, -⟩
    by_contra ha
    obtain ⟨e, herror⟩ := addDeviceFdt_error t none h hd (by simp) ha
    rw [hrun] at herror
    cases herror
  · intro ha
    obtain ⟨h', hrun, hb⟩ := addDeviceFdt_ok t none h hd (by simp) ha
    exact ⟨h.calls, h', hrun, hb.mirrors.reflects hd⟩

/-- A root with one property, which is empty. -/
def emptyValueTree : FdtNode := .node [] [⟨.ofString "ranges", []⟩] []

theorem emptyValueTree_distinct : emptyValueTree.Distinct :=
  .node (by simp) (by simp) (by simp)

def emptyHeap : Heap where
  calls := 0
  node _ := { children := [], properties := [], parent := none, boundDevice := none, name := [] }
  property _ := { valueLen := 0, name := [], value := 0 }
  value _ _ := 0

/-- With an allocator that gives no block for size 0 the empty property panics. -/
theorem emptyValueTree_panics :
    ¬ ∀ (w : ℕ) (A : Allocator) (t : FdtNode) (h : Heap),
      (∀ k size, 0 < size → A k size = true) → t.Distinct →
      ∃ root h', addDeviceFdt w A none t h = .ok (root, h') ∧ Reflects h' root t := by
  intro hall
  obtain ⟨root, h', hrun, -⟩ := hall 4 (fun _ size => decide (0 < size)) emptyValueTree emptyHeap
    (fun _ _ hsize => by simpa using hsize) emptyValueTree_distinct
  have hpanic : addDeviceFdt 4 (fun _ size => decide (0 < size)) none emptyValueTree emptyHeap =
      .error (outOfMemoryProperty [] (.ofString "ranges")) := rfl
  rw [hpanic] at hrun
  cases hrun

/-- With one that does, the same tree is made. -/
theorem emptyValueTree_reflects :
    ∃ root h', addDeviceFdt 4 (fun _ _ => true) none emptyValueTree emptyHeap = .ok (root, h') ∧
      Reflects h' root emptyValueTree :=
  (addDeviceFdt_reflects 4 (fun _ _ => true) emptyValueTree emptyHeap (fun _ _ _ => rfl)
    emptyValueTree_distinct).mpr fun _ _ => rfl

end Gandr.DeviceTree

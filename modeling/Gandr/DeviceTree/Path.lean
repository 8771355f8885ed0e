import Gandr.DeviceTree.Mirror

/-! The paths of devices, as `dt_device_get_path` of `bal/device/dt/dt_device.c`
makes them. The name of a node is appended to the path of its parent with
nothing between them, so different nodes can have the same path. -/

namespace Gandr.DeviceTree

abbrev Device := ℕ

/-- What `device_get_dt_node` of a device returns: an error or the node. -/
abbrev DtNodes := Device → Except ℤ Block

def ENOENT : ℤ := 2

structure PathResult where
  rv : ℤ
  buf : Buffer UInt8
  szNeeded : ℕ

/-- The last lines of `dt_device_get_path`. -/
def appendName (name : CString) (szBuf : ℕ) (r : PathResult) : PathResult :=
  { rv := 0, buf := strlcat r.buf name szBuf, szNeeded := r.szNeeded + name.length }

/-- The parent's `device_get_path` is this function again; `fuel` bounds the
recursion. -/
def dtDeviceGetPath (nodes : DtNodes) (h : Heap) (szBuf : ℕ) :
    ℕ → Device → PathResult → Option PathResult
  | 0, _, _ => none
  | fuel + 1, dev, r =>
    match nodes dev with
    | .error rv => some { r with rv := rv }
    | .ok node =>
      match (h.node node).parent with
      | some p =>
        match (h.node p).boundDevice with
        | none => some { r with rv := ENOENT }
        | some parent => (dtDeviceGetPath nodes h szBuf fuel parent r).map fun r =>
            if r.rv ≠ 0 then r else appendName (h.node node).name szBuf r
      | none => some (appendName (h.node node).name szBuf
          { rv := 0, buf := strlcpy r.buf (.ofString "/") szBuf, szNeeded := 1 })

/-- With enough rounds and a large enough buffer the device gets this path. -/
def GetsPath (nodes : DtNodes) (h : Heap) (dev : Device) (path : CString) : Prop :=
  ∃ bound, ∀ fuel ≥ bound, ∀ szBuf ≥ bound, ∀ r, ∃ r',
    dtDeviceGetPath nodes h szBuf fuel dev r = some r' ∧ r'.rv = 0 ∧
      cString r'.buf szBuf = path

/-- `l` are the nodes from the root down to `n`, and all of them above `n` are
bound to a device that knows its node. -/
inductive Ancestry (nodes : DtNodes) (h : Heap) : Block → List Block → Prop where
  | root {n : Block} (top : (h.node n).parent = none) : Ancestry nodes h n [n]
  | child {n p : Block} {parent : Device} {l : List Block} (up : (h.node n).parent = some p)
      (bound : (h.node p).boundDevice = some parent) (knows : nodes parent = .ok p)
      (above : Ancestry nodes h p l) : Ancestry nodes h n (l ++ [n])

/-- A slash and the names of the nodes. -/
def fullPath (h : Heap) (l : List Block) : CString :=
  .ofString "/" ++ (l.map fun n => (h.node n).name).flatten

/-- A successful call with a buffer of `szBuf` bytes that held `old`. -/
structure Truncated (path : CString) (szBuf : ℕ) (old : Buffer UInt8) (r : PathResult) :
    Prop where
  rv : r.rv = 0
  needed : r.szNeeded = path.length
  /-- the start of the path, as far as the buffer goes -/
  text : ∀ i < min (szBuf - 1) path.length, path[i]? = some (r.buf i)
  terminator : 1 ≤ szBuf → r.buf (min (szBuf - 1) path.length) = 0
  outside : ∀ i ≥ szBuf, r.buf i = old i
  /-- in a large enough buffer that is all of it -/
  whole : path.length < szBuf → cString r.buf szBuf = path

/-- Every node below `root` is bound to a device that knows it. -/
def Bound (nodes : DtNodes) (h : Heap) (root : Block) : Prop :=
  ∀ path n, h.follow root path = some n →
    ∃ dev, (h.node n).boundDevice = some dev ∧ nodes dev = .ok n

/-- The names of the nodes below are not empty and hold neither `/` nor the end
of a string. -/
inductive FdtNode.Named : FdtNode → Prop where
  | node {name : CString} {properties : List FdtProperty} {subnodes : List FdtNode}
      (nonempty : ∀ s ∈ subnodes, s.name ≠ []) (slash : ∀ s ∈ subnodes, 47 ∉ s.name)
      (string : ∀ s ∈ subnodes, 0 ∉ s.name) (all : ∀ s ∈ subnodes, Named s) :
      Named (node name properties subnodes)

/-- A device tree with a bound device at every node. -/
structure BoundTree (nodes : DtNodes) (h : Heap) (root : Block) (t : FdtNode) : Prop where
  mirrors : ∃ lo hi, Mirrors h lo hi root t
  distinct : t.Distinct
  top : (h.node root).parent = none
  unnamed : t.name = []
  named : t.Named
  bound : Bound nodes h root

theorem FdtNode.follow_cons (t : FdtNode) (name : CString) (path : List CString) :
    t.follow (name :: path) = (t.subnode name).bind fun s => s.follow path := by
  rw [FdtNode.follow, List.foldlM_cons]
  rfl

theorem follow_subnode {t s : FdtNode} {name : CString} (hs : t.subnode name = some s)
    (path : List CString) : t.follow (name :: path) = s.follow path := by
  rw [FdtNode.follow_cons, hs]
  rfl

theorem exists_subnode {t : FdtNode} {name : CString} {path : List CString}
    (hpath : (t.follow (name :: path)).isSome) :
    ∃ s, t.subnode name = some s ∧ (s.follow path).isSome := by
  rw [FdtNode.follow_cons] at hpath
  cases hsub : t.subnode name with
  | none => simp [hsub] at hpath
  | some s => exact ⟨s, rfl, by simpa [hsub] using hpath⟩

theorem FdtNode.Named.path {t : FdtNode} (ht : t.Named) (path : List CString)
    (hpath : (t.follow path).isSome) : ∀ name ∈ path, name ≠ [] ∧ 0 ∉ name := by
  induction path generalizing t with
  | nil => simp
  | cons key path ih =>
    obtain ⟨s, hs, hbelow⟩ := exists_subnode hpath
    obtain ⟨hmem, rfl⟩ := rbFind_some hs
    obtain ⟨nonempty, -, string, all⟩ := ht
    intro name hname
    rcases List.mem_cons.mp hname with rfl | hname
    · exact ⟨nonempty s hmem, string s hmem⟩
    · exact ih (all s hmem) hbelow name hname

section Truncation

variable {nodes : DtNodes} {h : Heap} {n : Block} {l : List Block} {dev : Device} {fuel : ℕ}

theorem fullPath_string (hnames : ∀ m ∈ l, 0 ∉ (h.node m).name) : 0 ∉ fullPath h l := by
  rw [fullPath, List.mem_append, not_or]
  refine ⟨by decide, fun hmem => ?_⟩
  obtain ⟨name, hname, hzero⟩ := List.mem_flatten.mp hmem
  obtain ⟨m, hm, rfl⟩ := List.mem_map.mp hname
  exact hnames m hm hzero

theorem fullPath_concat (h : Heap) (l : List Block) (n : Block) :
    fullPath h (l ++ [n]) = fullPath h l ++ (h.node n).name := by
  simp [fullPath]

/-- The result is a copy of the full path, cut to the buffer. -/
theorem Ancestry.getPath (hl : Ancestry nodes h n l) (hnames : ∀ m ∈ l, 0 ∉ (h.node m).name)
    (hdev : nodes dev = .ok n) (hfuel : l.length ≤ fuel) (szBuf : ℕ) (r : PathResult) :
    dtDeviceGetPath nodes h szBuf fuel dev r = some
      { rv := 0, buf := strlcpy r.buf (fullPath h l) szBuf
        szNeeded := (fullPath h l).length } := by
  induction hl generalizing dev fuel with
  | @root n top =>
    obtain ⟨fuel, rfl⟩ : ∃ m, fuel = m + 1 := ⟨fuel - 1, by simp at hfuel; omega⟩
    have hslash : 0 ∉ CString.ofString "/" := by decide
    rw [dtDeviceGetPath, hdev]
    simp only [top, appendName, strlcat_strlcpy r.buf hslash, fullPath, List.map_cons,
      List.map_nil, List.flatten_cons, List.flatten_nil, List.append_nil, List.length_append]
    rfl
  | @child n p parent l up bound knows above ih =>
    obtain ⟨fuel, rfl⟩ : ∃ m, fuel = m + 1 := ⟨fuel - 1, by simp at hfuel; omega⟩
    have hnames' : ∀ m ∈ l, 0 ∉ (h.node m).name :=
      fun m hm => hnames m (List.mem_append_left _ hm)
    have hlen : l.length ≤ fuel := by simpa using hfuel
    rw [dtDeviceGetPath, hdev]
    simp only [up, bound, ih hnames' knows hlen, Option.map_some, appendName,
      strlcat_strlcpy r.buf (fullPath_string hnames'), fullPath_concat, List.length_append]
    rfl

theorem truncated_strlcpy {path : CString} (hpath : 0 ∉ path) (szBuf : ℕ) (b : Buffer UInt8) :
    Truncated path szBuf b ⟨0, strlcpy b path szBuf, path.length⟩ where
  rv := rfl
  needed := rfl
  text i hi := by
    have hlt : i < path.length := by omega
    dsimp only
    rw [strlcpy_apply b path hi, List.getElem?_eq_getElem hlt]
    rfl
  terminator hsz := strlcpy_end b path (by omega)
  outside i hi := strlcpy_outside b path hi
  whole hsz := by
    rw [cString_strlcpy b hpath (by omega)]
    exact List.take_of_length_le (by omega)

end Truncation

section Paths

variable {nodes : DtNodes} {h : Heap} {root : Block} {t : FdtNode}

theorem Heap.follow_snoc (h : Heap) (root : Block) (path : List CString) (name : CString) :
    h.follow root (path ++ [name]) = (h.follow root path).bind fun n =>
      dtNodeFindChild h n name := by
  rw [Heap.follow, List.foldlM_append]
  simp [Heap.follow, bind]

/-- The way to a node other than the root goes over its parent. -/
theorem BoundTree.parent (ht : BoundTree nodes h root t) {path : List CString}
    {name : CString} {n : Block} (hn : h.follow root (path ++ [name]) = some n) :
    (h.node n).name = name ∧
      ∃ p, h.follow root path = some p ∧ (h.node n).parent = some p := by
  obtain ⟨lo, hi, hm⟩ := ht.mirrors
  rw [Heap.follow_snoc, Option.bind_eq_some_iff] at hn
  obtain ⟨p, hp, hn⟩ := hn
  exact ⟨(rbFind_some hn).2, p, hp, (hm.reflects ht.distinct).parent path p name n hp hn⟩

theorem BoundTree.exists_node (ht : BoundTree nodes h root t) (path : List CString) :
    (h.follow root path).isSome ↔ (t.follow path).isSome := by
  obtain ⟨lo, hi, hm⟩ := ht.mirrors
  exact (hm.reflects ht.distinct).found path

theorem BoundTree.root_name (ht : BoundTree nodes h root t) : (h.node root).name = [] := by
  obtain ⟨lo, hi, hm⟩ := ht.mirrors
  rw [hm.name, ht.unnamed]

/-- Different paths of names lead to different nodes. -/
theorem BoundTree.follow_inj (ht : BoundTree nodes h root t) {p q : List CString} {n : Block}
    (hp : h.follow root p = some n) (hq : h.follow root q = some n) : p = q := by
  induction p using List.reverseRecOn generalizing q n with
  | nil =>
    obtain rfl : root = n := Option.some.inj hp
    rcases List.eq_nil_or_concat' q with rfl | ⟨q, name, rfl⟩
    · rfl
    · obtain ⟨-, m, -, hparent⟩ := ht.parent hq
      rw [ht.top] at hparent
      cases hparent
  | append_singleton p name ih =>
    obtain ⟨hname, m, hm, hparent⟩ := ht.parent hp
    rcases List.eq_nil_or_concat' q with rfl | ⟨q, name', rfl⟩
    · obtain rfl : root = n := Option.some.inj hq
      rw [ht.top] at hparent
      cases hparent
    · obtain ⟨hname', m', hm', hparent'⟩ := ht.parent hq
      obtain rfl : m = m' := Option.some.inj (hparent.symm.trans hparent')
      rw [ih hm hm', ← hname, hname']

theorem BoundTree.string (ht : BoundTree nodes h root t) {path : List CString} {n : Block}
    (hn : h.follow root path = some n) : 0 ∉ path.flatten := by
  have hsome : (t.follow path).isSome := (ht.exists_node path).mp (by rw [hn]; rfl)
  intro hmem
  obtain ⟨name, hname, hzero⟩ := List.mem_flatten.mp hmem
  exact (ht.named.path path hsome name hname).2 hzero

/-- The nodes along a path of names. -/
theorem BoundTree.ancestry (ht : BoundTree nodes h root t) {path : List CString} {n : Block}
    (hn : h.follow root path = some n) :
    ∃ l, Ancestry nodes h n l ∧ (l.map fun m => (h.node m).name) = [] :: path := by
  induction path using List.reverseRecOn generalizing n with
  | nil =>
    obtain rfl : root = n := Option.some.inj hn
    exact ⟨[root], .root ht.top, by simp [ht.root_name]⟩
  | append_singleton path name ih =>
    obtain ⟨hname, p, hp, hparent⟩ := ht.parent hn
    obtain ⟨dev, hbound, hknows⟩ := ht.bound path p hp
    obtain ⟨l, hl, hmap⟩ := ih hp
    refine ⟨l ++ [n], .child hparent hbound hknows hl, ?_⟩
    rw [List.map_append, hmap, List.map_cons, hname]
    rfl

/-- The result is a copy of the names after a slash, cut to the buffer. -/
theorem BoundTree.getPath (ht : BoundTree nodes h root t) {path : List CString} {n : Block}
    {dev : Device} (hn : h.follow root path = some n) (hdev : nodes dev = .ok n) {fuel : ℕ}
    (hfuel : path.length < fuel) (szBuf : ℕ) (r : PathResult) :
    dtDeviceGetPath nodes h szBuf fuel dev r = some
      { rv := 0, buf := strlcpy r.buf (.ofString "/" ++ path.flatten) szBuf
        szNeeded := 1 + path.flatten.length } := by
  obtain ⟨l, hl, hmap⟩ := ht.ancestry hn
  have hlen : l.length = path.length + 1 := by simpa using congrArg List.length hmap
  have hnames : ∀ m ∈ l, 0 ∉ (h.node m).name := by
    intro m hm hzero
    have hmem : (h.node m).name ∈ [] :: path := hmap ▸ List.mem_map_of_mem hm
    rcases List.mem_cons.mp hmem with hname | hname
    · rw [hname] at hzero
      cases hzero
    · exact ht.string hn (List.mem_flatten.mpr ⟨_, hname, hzero⟩)
  have hpath : fullPath h l = .ofString "/" ++ path.flatten := by
    rw [fullPath, hmap]
    rfl
  rw [hl.getPath hnames hdev (by omega), hpath, List.length_append]
  rfl

theorem BoundTree.getsPath (ht : BoundTree nodes h root t) {path : List CString} {n : Block}
    {dev : Device} (hn : h.follow root path = some n) (hdev : nodes dev = .ok n) :
    GetsPath nodes h dev (.ofString "/" ++ path.flatten) := by
  refine ⟨path.length + path.flatten.length + 3, fun fuel hfuel szBuf hsz r => ?_⟩
  refine ⟨_, ht.getPath hn hdev (by omega) szBuf r, rfl, ?_⟩
  have hstring : 0 ∉ CString.ofString "/" ++ path.flatten := by
    rw [List.mem_append, not_or]
    exact ⟨by decide, ht.string hn⟩
  rw [cString_strlcpy r.buf hstring (by omega)]
  refine List.take_of_length_le ?_
  have : (CString.ofString "/").length = 1 := rfl
  rw [List.length_append]
  omega

theorem GetsPath.unique {dev : Device} {s s' : CString} (hs : GetsPath nodes h dev s)
    (hs' : GetsPath nodes h dev s') : s = s' := by
  obtain ⟨b, hb⟩ := hs
  obtain ⟨b', hb'⟩ := hs'
  obtain ⟨r, hr, -, rfl⟩ := hb (max b b') (le_max_left ..) (max b b') (le_max_left ..)
    ⟨0, fun _ => 0, 0⟩
  obtain ⟨r', hr', -, rfl⟩ := hb' (max b b') (le_max_right ..) (max b b') (le_max_right ..)
    ⟨0, fun _ => 0, 0⟩
  rw [Option.some.inj (hr.symm.trans hr')]

end Paths

/-! ### When paths identify devices -/

mutual

/-- What the names spell from a node down to each node below it. -/
def spellings : FdtNode → List CString
  | .node name _ subnodes => name :: (allSpellings subnodes).map (name ++ ·)

def allSpellings : List FdtNode → List CString
  | [] => []
  | t :: rest => spellings t ++ allSpellings rest

end

/-- Nothing is spelled below two different children of one node. -/
inductive Separated : FdtNode → Prop where
  | node {name : CString} {properties : List FdtProperty} {subnodes : List FdtNode}
      (apart : subnodes.Pairwise fun s s' => ∀ x ∈ spellings s, x ∉ spellings s')
      (all : ∀ s ∈ subnodes, Separated s) : Separated (.node name properties subnodes)

theorem mem_allSpellings {x : CString} {ts : List FdtNode} :
    x ∈ allSpellings ts ↔ ∃ t ∈ ts, x ∈ spellings t := by
  induction ts with
  | nil => simp [allSpellings]
  | cons t ts ih => simp [allSpellings, ih]

section Spelling

variable {t : FdtNode}

theorem FdtNode.Distinct.subnode_mem {name : CString} {properties : List FdtProperty}
    {subnodes : List FdtNode} (hd : (FdtNode.node name properties subnodes).Distinct)
    {s : FdtNode} (hs : s ∈ subnodes) :
    (FdtNode.node name properties subnodes).subnode s.name = some s := by
  obtain ⟨-, hsd, -⟩ := hd
  exact rbFind_of_mem hsd hs

/-- The spellings are the names along the paths of the tree. -/
theorem mem_spellings (hd : t.Distinct) {x : CString} :
    x ∈ spellings t ↔ ∃ path, (t.follow path).isSome ∧ x = t.name ++ path.flatten := by
  induction hd generalizing x with
  | @node name properties subnodes hp hs hall ih =>
    have hd : (FdtNode.node name properties subnodes).Distinct := .node hp hs hall
    simp only [spellings, List.mem_cons, List.mem_map, mem_allSpellings, FdtNode.name]
    constructor
    · rintro (rfl | ⟨y, ⟨s, hmem, hy⟩, rfl⟩)
      · exact ⟨[], rfl, by simp⟩
      · obtain ⟨path, hpath, rfl⟩ := (ih s hmem).mp hy
        refine ⟨s.name :: path, ?_, by simp⟩
        rw [follow_subnode (hd.subnode_mem hmem)]
        exact hpath
    · rintro ⟨path, hpath, rfl⟩
      cases path with
      | nil => exact .inl (by simp)
      | cons key path =>
        obtain ⟨s, hsub, hbelow⟩ := exists_subnode hpath
        obtain ⟨hmem, rfl⟩ := rbFind_some hsub
        exact .inr ⟨s.name ++ path.flatten,
          ⟨s, hmem, (ih s hmem).mpr ⟨path, hbelow, rfl⟩⟩, by simp⟩

/-- Two paths of the tree never spell the same string. -/
def SpelledOnce (t : FdtNode) : Prop :=
  ∀ p q, (t.follow p).isSome → (t.follow q).isSome → p.flatten = q.flatten → p = q

theorem Separated.spelledOnce (hd : t.Distinct)
    (hn : ∀ path, (t.follow path).isSome → ∀ name ∈ path, name ≠ []) (hsep : Separated t) :
    SpelledOnce t := by
  induction hd with
  | @node name properties subnodes hpd hsd hall ih =>
    obtain ⟨apart, hsep⟩ := hsep
    intro p q hp hq heq
    cases p with
    | nil =>
      cases q with
      | nil => rfl
      | cons b q =>
        rw [List.flatten_cons, List.flatten_nil] at heq
        exact absurd (List.append_eq_nil_iff.mp heq.symm).1 (hn _ hq b (by simp))
    | cons a p =>
      cases q with
      | nil =>
        rw [List.flatten_cons, List.flatten_nil] at heq
        exact absurd (List.append_eq_nil_iff.mp heq).1 (hn _ hp a (by simp))
      | cons b q =>
        obtain ⟨s, hs, hp'⟩ := exists_subnode hp
        obtain ⟨s', hs', hq'⟩ := exists_subnode hq
        obtain ⟨hmem, rfl⟩ := rbFind_some hs
        obtain ⟨hmem', rfl⟩ := rbFind_some hs'
        rw [List.flatten_cons, List.flatten_cons] at heq
        by_cases hname : s.name = s'.name
        · obtain rfl : s = s' := Option.some.inj (hs.symm.trans (hname ▸ hs'))
          have hnames : ∀ path, (s.follow path).isSome → ∀ name ∈ path, name ≠ [] :=
            fun path hpath name hmem' => hn (s.name :: path) (by rwa [follow_subnode hs]) name
              (List.mem_cons_of_mem _ hmem')
          rw [ih s hmem hnames (hsep s hmem) p q hp' hq' (List.append_cancel_left heq)]
        · -- different children: the string is spelled below both
          have hne : s ≠ s' := fun h => hname (congrArg FdtNode.name h)
          have : Std.Symm fun s s' : FdtNode => ∀ x ∈ spellings s, x ∉ spellings s' :=
            ⟨fun _ _ h x hx hx' => h x hx' hx⟩
          refine absurd ?_ (apart.forall hmem hmem' hne (s.name ++ p.flatten) ?_)
          · rw [heq]
            exact (mem_spellings (hall s' hmem')).mpr ⟨q, hq', rfl⟩
          · exact (mem_spellings (hall s hmem)).mpr ⟨p, hp', rfl⟩

theorem SpelledOnce.separated (hd : t.Distinct) (hone : SpelledOnce t) : Separated t := by
  induction hd with
  | @node name properties subnodes hpd hsd hall ih =>
    have hd : (FdtNode.node name properties subnodes).Distinct := .node hpd hsd hall
    refine .node ?_ fun s hs => ih s hs fun p q hp hq heq => ?_
    · refine (List.pairwise_map.mp hsd).imp_of_mem fun {s s'} hs hs' hne x hx hx' => hne ?_
      obtain ⟨p, hp, rfl⟩ := (mem_spellings (hall s hs)).mp hx
      obtain ⟨q, hq, heq⟩ := (mem_spellings (hall s' hs')).mp hx'
      have hpq := hone (s.name :: p) (s'.name :: q)
        (by rwa [follow_subnode (hd.subnode_mem hs)])
        (by rwa [follow_subnode (hd.subnode_mem hs')]) (by simpa using heq)
      exact (List.cons.inj hpq).1
    · have hpq := hone (s.name :: p) (s.name :: q)
        (by rwa [follow_subnode (hd.subnode_mem hs)])
        (by rwa [follow_subnode (hd.subnode_mem hs)]) (by simp [heq])
      exact (List.cons.inj hpq).2

end Spelling

/-- The paths identify the devices exactly when no string is spelled below two
children of one node. -/
theorem dtDeviceGetPath_identifies (nodes : DtNodes) (h : Heap) (root : Block) (t : FdtNode)
    (ht : BoundTree nodes h root t) :
    (∀ p q n m dev dev', h.follow root p = some n → h.follow root q = some m → n ≠ m →
      (h.node n).boundDevice = some dev → (h.node m).boundDevice = some dev' →
      ∃ s s', GetsPath nodes h dev s ∧ GetsPath nodes h dev' s' ∧ s ≠ s') ↔ Separated t := by
  constructor
  · intro hdiff
    refine SpelledOnce.separated ht.distinct fun p q hp hq heq => ?_
    by_contra hpq
    obtain ⟨n, hn⟩ := Option.isSome_iff_exists.mp ((ht.exists_node p).mpr hp)
    obtain ⟨m, hm⟩ := Option.isSome_iff_exists.mp ((ht.exists_node q).mpr hq)
    have hne : n ≠ m := by
      rintro rfl
      exact hpq (ht.follow_inj hn hm)
    obtain ⟨dev, hdev, hnode⟩ := ht.bound p n hn
    obtain ⟨dev', hdev', hnode'⟩ := ht.bound q m hm
    obtain ⟨s, s', hs, hs', hss⟩ := hdiff p q n m dev dev' hn hm hne hdev hdev'
    have hpath := ht.getsPath hn hnode
    have hpath' := ht.getsPath hm hnode'
    rw [heq] at hpath
    exact hss ((hs.unique hpath).trans (hpath'.unique hs'))
  · intro hsep p q n m dev dev' hn hm hne hdev hdev'
    obtain ⟨_, hdev₁, hnode⟩ := ht.bound p n hn
    obtain ⟨_, hdev₂, hnode'⟩ := ht.bound q m hm
    obtain rfl := Option.some.inj (hdev.symm.trans hdev₁)
    obtain rfl := Option.some.inj (hdev'.symm.trans hdev₂)
    refine ⟨_, _, ht.getsPath hn hnode, ht.getsPath hm hnode', fun heq => hne ?_⟩
    have hp := (ht.exists_node p).mp (by rw [hn]; rfl)
    have hq := (ht.exists_node q).mp (by rw [hm]; rfl)
    obtain rfl := hsep.spelledOnce ht.distinct (fun path hpath name hmem => (ht.named.path path hpath name hmem).1) p q hp hq
      (List.append_cancel_left heq)
    exact Option.some.inj (hn.symm.trans hm)

section Fork

variable (x y z : CString)

/-- A root with the children `x` and `y`, and `z` below `x`. -/
def fork : FdtNode := .node [] [] [.node x [] [.node z [] []], .node y [] []]

def forkHeap : Heap where
  calls := 4
  node b :=
    { children := if b = 0 then [1, 2] else if b = 1 then [3] else []
      properties := []
      parent := if b = 0 then none else if b = 3 then some 1 else some 0
      boundDevice := some b
      name := if b = 0 then [] else if b = 1 then x else if b = 2 then y else z }
  property _ := { valueLen := 0, name := [], value := 0 }
  value _ _ := 0

variable {x y z}

theorem fork_boundTree (hxy : x ≠ y) (hn : ∀ name ∈ [x, y, z], name ≠ [] ∧ 47 ∉ name ∧ 0 ∉ name) :
    BoundTree .ok (forkHeap x y z) 0 (fork x y z) where
  mirrors := by
    refine ⟨0, 4, by simp, rfl, ⟨[], .refl _, .nil⟩, [1, 2], .refl _, 1, [2], rfl, rfl, ?_,
      2, [], rfl, rfl, ?_, rfl⟩
    · exact ⟨by simp, rfl, ⟨[], .refl _, .nil⟩, [3], .refl _, 3, [], rfl, rfl,
        ⟨by simp, rfl, ⟨[], .refl _, .nil⟩, [], .refl _, rfl⟩, rfl⟩
    · exact ⟨by simp, rfl, ⟨[], .refl _, .nil⟩, [], .refl _, rfl⟩
  distinct := by
    refine .node (by simp) (by simpa [FdtNode.name] using hxy) fun s hs => ?_
    rcases List.mem_pair.mp hs with rfl | rfl
    · exact .node (by simp) (by simp) fun s hs => by
        obtain rfl := List.mem_singleton.mp hs
        exact .node (by simp) (by simp) (by simp)
    · exact .node (by simp) (by simp) (by simp)
  top := rfl
  unnamed := rfl
  named := by
    have hx := hn x (by simp)
    have hy := hn y (by simp)
    have hz := hn z (by simp)
    refine .node ?_ ?_ ?_ fun s hs => ?_
    · simp [FdtNode.name, hx, hy]
    · simp [FdtNode.name, hx, hy]
    · simp [FdtNode.name, hx, hy]
    rcases List.mem_pair.mp hs with rfl | rfl
    · refine .node ?_ ?_ ?_ fun s hs => ?_
      · simp [FdtNode.name, hz]
      · simp [FdtNode.name, hz]
      · simp [FdtNode.name, hz]
      obtain rfl := List.mem_singleton.mp hs
      exact .node (by simp) (by simp) (by simp) (by simp)
    · exact .node (by simp) (by simp) (by simp) (by simp)
  bound _ n _ := ⟨n, rfl, rfl⟩

end Fork

/-- The child `b` of `a` and its sibling `ab` have the same path. -/
theorem fork_collides :
    ¬ ∀ (nodes : DtNodes) (h : Heap) (root : Block) (t : FdtNode), BoundTree nodes h root t →
      ∀ p q n m dev dev', h.follow root p = some n → h.follow root q = some m → n ≠ m →
        (h.node n).boundDevice = some dev → (h.node m).boundDevice = some dev' →
        ∃ s s', GetsPath nodes h dev s ∧ GetsPath nodes h dev' s' ∧ s ≠ s' := by
  intro hall
  have ht : BoundTree .ok (forkHeap [97] [97, 98] [98]) 0 (fork [97] [97, 98] [98]) :=
    fork_boundTree (by decide) (by decide)
  obtain ⟨s, s', hs, hs', hne⟩ := hall _ _ _ _ ht [[97], [98]] [[97, 98]] 3 2 3 2 rfl rfl
    (by decide) rfl rfl
  have hn : (forkHeap [97] [97, 98] [98]).follow 0 [[97], [98]] = some 3 := rfl
  have hm : (forkHeap [97] [97, 98] [98]).follow 0 [[97, 98]] = some 2 := rfl
  have hpath : GetsPath .ok (forkHeap [97] [97, 98] [98]) 3 [47, 97, 98] := ht.getsPath hn rfl
  have hpath' : GetsPath .ok (forkHeap [97] [97, 98] [98]) 2 [47, 97, 98] := ht.getsPath hm rfl
  exact hne ((hs.unique hpath).trans (hpath'.unique hs'))

/-- Where the names differ in their first characters, the two have paths of their own. -/
theorem fork_identifies :
    ∃ s s', GetsPath .ok (forkHeap [97] [98] [99]) 3 s ∧
      GetsPath .ok (forkHeap [97] [98] [99]) 2 s' ∧ s ≠ s' := by
  have hall := (dtDeviceGetPath_identifies .ok (forkHeap [97] [98] [99]) 0 (fork [97] [98] [99])
    (fork_boundTree (by decide) (by decide))).mpr <| .node (by decide) fun s hs => by
      rcases List.mem_pair.mp hs with rfl | rfl
      · exact .node (by simp) fun s hs => by
          obtain rfl := List.mem_singleton.mp hs
          exact .node (by simp) (by simp)
      · exact .node (by simp) (by simp)
  exact hall [[97], [99]] [[98]] 3 2 3 2 rfl rfl (by decide) rfl rfl

/-! ### Truncated paths -/

/-- For every node whose ancestors are bound, of any depth, and every size of the
buffer: the call succeeds, measures the full path and stores as much of it as fits,
and nothing behind the buffer. -/
theorem dtDeviceGetPath_truncates (nodes : DtNodes) (h : Heap) (n : Block) (l : List Block)
    (hl : Ancestry nodes h n l) (hnames : ∀ m ∈ l, 0 ∉ (h.node m).name) (dev : Device)
    (hdev : nodes dev = .ok n) (szBuf fuel : ℕ) (hfuel : l.length ≤ fuel) (r : PathResult) :
    ∃ r', dtDeviceGetPath nodes h szBuf fuel dev r = some r' ∧
      Truncated (fullPath h l) szBuf r.buf r' :=
  ⟨_, hl.getPath hnames hdev hfuel szBuf r, truncated_strlcpy (fullPath_string hnames) szBuf r.buf⟩

/-- The path `/ab` in a buffer of two bytes. -/
theorem fork_truncated :
    ∃ r', dtDeviceGetPath .ok (forkHeap [97] [99] [98]) 2 3 3 ⟨0, fun _ => 255, 0⟩ = some r' ∧
      Truncated [47, 97, 98] 2 (fun _ => 255) r' := by
  have hl : Ancestry .ok (forkHeap [97] [99] [98]) 3 [0, 1, 3] :=
    .child rfl rfl rfl (.child rfl rfl rfl (.root rfl))
  exact dtDeviceGetPath_truncates .ok (forkHeap [97] [99] [98]) 3 [0, 1, 3] hl (by decide) 3 rfl 2 3
    le_rfl ⟨0, fun _ => 255, 0⟩

end Gandr.DeviceTree

import Gandr.DeviceTree.Tree
import Gandr.Mmap.Model
import Gandr.RbTree.Runs

/-! The trees of the program. The memory map and the device tree are modelled with
lists in place of their trees; the macros on links do what is done there to the
lists. -/

namespace Gandr.RbTree

open RedBlack Links

section MemoryMap

open Mmap (State MemoryMapEntry)

variable {s : State} {L : Links} {fuel : ℕ}

def mmapEntryCmp (l r : MemoryMapEntry) : ℤ :=
  if l.physicalStart < r.physicalStart then -1
  else if l.physicalStart > r.physicalStart then 1
  else 0

/-- The comparison on the starts of entries. -/
def startCmp (a b : ℕ) : ℤ := if a < b then -1 else if a > b then 1 else 0

theorem compares_startCmp : Compares startCmp := by
  constructor
  · intro a b
    unfold startCmp
    split_ifs <;> simp_all
  · intro a b
    unfold startCmp
    split_ifs with h
    · simp [h.le]
    · simp_all
    · simp_all

/-- The nodes of the map, in the order of their starts. -/
def ofMap (s : State)
    (h : s.tree.Pairwise fun a b => (s.entry a).physicalStart < (s.entry b).physicalStart) :
    Ordered ℕ := ⟨fun n => (s.entry n).physicalStart, s.tree, h⟩

theorem rbInsert_ofMap {elm : ℕ} (h0 : elm ≠ 0)
    (h : s.tree.Pairwise fun a b => (s.entry a).physicalStart < (s.entry b).physicalStart) :
    (Mmap.rbInsert s elm).1 = ((ofMap s h).insert elm).1 ∧
      (Mmap.rbInsert s elm).2.tree = ((ofMap s h).insert elm).2.nodes := by
  rw [Mmap.rbInsert, Ordered.insert]
  cases hfind : s.tree.find? fun n => (s.entry n).physicalStart = (s.entry elm).physicalStart with
  | none =>
    rw [List.find?_eq_none] at hfind
    have hne : ∀ a ∈ (ofMap s h).nodes, (ofMap s h).key a ≠ (ofMap s h).key elm :=
      fun a ha he => hfind a ha (decide_eq_true he)
    rw [dif_pos hne]
    exact ⟨rfl, if_neg h0⟩
  | some old =>
    have hold := List.find?_some hfind
    have hmem := List.mem_of_find?_eq_some hfind
    have hne : ¬∀ a ∈ (ofMap s h).nodes, (ofMap s h).key a ≠ (ofMap s h).key elm := by
      intro hne
      exact hne old hmem (of_decide_eq_true hold)
    rw [dif_neg hne, Ordered.find]
    refine ⟨?_, rfl⟩
    change old = (s.tree.find? fun n => (s.entry n).physicalStart = (s.entry elm).physicalStart).getD 0
    rw [hfind]
    rfl

/-- On the links of a memory map the macros do what the model of the map does to
the list of its nodes. -/
theorem mmapTree_macros (h : IsTree L s.tree)
    (hsorted : s.tree.Pairwise fun a b => (s.entry a).physicalStart < (s.entry b).physicalStart)
    (hfuel : 2 * Nat.log 2 (s.tree.length + 1) + 2 ≤ fuel) :
    (∀ elm, elm ≠ 0 → elm ∉ s.tree → ∃ L',
      rbInsert (fun a b => mmapEntryCmp (s.entry a) (s.entry b)) fuel L elm =
        some ((Mmap.rbInsert s elm).1, L') ∧ IsTree L' (Mmap.rbInsert s elm).2.tree) ∧
    (∀ elm ∈ s.tree, ∃ L', rbRemove fuel L elm = some L' ∧ IsTree L' (Mmap.rbRemove s elm).tree) ∧
    (∀ elm ∈ s.tree, rbNext fuel L elm = some (Mmap.rbNext s elm)) ∧
    (∀ elm ∈ s.tree, rbPrev fuel L elm = some (Mmap.rbPrev s elm)) ∧
    (∀ rounds, s.tree.length < rounds → rbForeach fuel rounds L = some s.tree) := by
  have hwalk : 2 * Nat.log 2 (s.tree.length + 1) ≤ fuel := by omega
  refine ⟨?_, ?_, ?_, ?_, ?_⟩
  · intro elm h0 hmem
    obtain ⟨hout, hlist⟩ := rbInsert_ofMap h0 hsorted
    rw [hout, hlist]
    exact rbInsert_simulates (o := ofMap s hsorted) compares_startCmp h h0 hmem hfuel
  · intro elm hmem
    rw [Mmap.rbRemove, if_pos hmem]
    exact rbRemove_simulates (o := ofMap s hsorted) h hmem hwalk
  · intro elm hmem
    exact rbNext_simulates (o := ofMap s hsorted) h hmem hwalk
  · intro elm hmem
    rw [Mmap.rbPrev, if_pos hmem]
    exact rbPrev_simulates (o := ofMap s hsorted) h hmem hwalk
  · intro rounds hrounds
    exact (rbForeach_isTree h hwalk hrounds).1

/-- A map of two pages. -/
def twoPages : State where
  entry n := { type := .conventionalMemory, physicalStart := 0x1000 * n, size := 0x1000 }
  rbeLeft := fun _ => 0
  tree := [1, 2]
  lastFreed := 0
  allocNext := 3
  allocatable := 32
  mmapKey := 0
  overlapPrecedence := Mmap.overlapPrecedence
  nodePages := []
  frees := 0
  staleCalls := 0

theorem twoPages_macros : ∃ L, IsTree L twoPages.tree ∧ rbNext 8 L 1 = some 2 ∧
    ∃ L', rbRemove 8 L 1 = some L' ∧ IsTree L' [2] := by
  -- the tree of the map, by two insertions
  obtain ⟨L₁, -, h₁⟩ := @rbInsert_simulates _ _ startCmp unlinked
    (Ordered.empty fun n => 0x1000 * n) 8 compares_startCmp isTree_unlinked 1 (by decide) (by decide)
    (by decide)
  obtain ⟨L, -, h⟩ := @rbInsert_simulates _ _ startCmp L₁
    ((Ordered.empty fun n => 0x1000 * n).insert 1).2 8 compares_startCmp h₁ 2 (by decide) (by decide)
    (by decide)
  have htree : IsTree L twoPages.tree := h
  obtain ⟨-, hremove, hnext, -⟩ := mmapTree_macros (s := twoPages) htree (by decide)
    (show 2 * Nat.log 2 3 + 2 ≤ 8 by decide)
  exact ⟨L, htree, hnext 1 (by decide), hremove 1 (by decide)⟩

end MemoryMap

section DeviceTree

open DeviceTree

/-- The characters as numbers. -/
def codes (s : CString) : List ℕ := s.map UInt8.toNat

def codesCmp : List ℕ → List ℕ → ℤ
  | [], [] => 0
  | [], _ :: _ => -1
  | _ :: _, [] => 1
  | a :: as, b :: bs => if a = b then codesCmp as bs else (a : ℤ) - b

/-- `strcmp`. -/
def strcmp (l r : CString) : ℤ := codesCmp (codes l) (codes r)

theorem codes_injective : Function.Injective codes :=
  List.map_injective_iff.mpr fun _ _ h => UInt8.toNat_inj.mp h

theorem codes_lt {a b : CString} : codes a < codes b ↔ a < b := by
  induction a generalizing b with
  | nil => cases b <;> simp [codes]
  | cons x a ih =>
    cases b with
    | nil => simp [codes]
    | cons y b =>
      have hcons : ∀ (z : UInt8) (c : CString), codes (z :: c) = z.toNat :: codes c := fun _ _ => rfl
      rw [hcons, hcons, List.cons_lt_cons_iff, List.cons_lt_cons_iff, ih, UInt8.toNat_inj,
        UInt8.lt_iff_toNat_lt]

theorem compares_codesCmp : Compares codesCmp := by
  have hneg : ∀ a b, codesCmp a b < 0 ↔ a < b := by
    intro a
    induction a with
    | nil =>
      intro b
      cases b <;> simp [codesCmp]
    | cons x a ih =>
      intro b
      cases b with
      | nil => simp [codesCmp]
      | cons y b =>
        rw [codesCmp, List.cons_lt_cons_iff]
        split_ifs with hxy
        · simp [hxy, ih]
        · simp [hxy]
  have hpos : ∀ a b, 0 < codesCmp a b ↔ b < a := by
    intro a
    induction a with
    | nil =>
      intro b
      cases b <;> simp [codesCmp]
    | cons x a ih =>
      intro b
      cases b with
      | nil => simp [codesCmp]
      | cons y b =>
        rw [codesCmp, List.cons_lt_cons_iff]
        split_ifs with hxy
        · simp [hxy, ih]
        · simp [hxy, Ne.symm hxy]
  exact ⟨hneg, hpos⟩

variable {L : Links} {o : Ordered (List ℕ)} {name : ℕ → CString} {fuel : ℕ}

theorem rbFind_ofNames (hkey : o.key = fun n => codes (name n)) (key : CString) :
    o.find (codes key) = (DeviceTree.rbFind name o.nodes key).getD 0 := by
  rw [Ordered.find, DeviceTree.rbFind, hkey]
  simp only [codes_injective.eq_iff]

theorem rbInsert_ofNames (hkey : o.key = fun n => codes (name n)) (elm : ℕ) :
    (o.insert elm).2.nodes = DeviceTree.rbInsert name o.nodes elm := by
  have heq : ∀ a, o.key a = o.key elm ↔ name a = name elm := by
    intro a
    rw [hkey]
    exact codes_injective.eq_iff
  have hlt : ∀ a, o.key a < o.key elm ↔ name a < name elm := by
    intro a
    rw [hkey]
    exact codes_lt
  rw [Ordered.insert, DeviceTree.rbInsert, DeviceTree.rbFind]
  cases hfind : o.nodes.find? fun n => name n = name elm with
  | none =>
    rw [List.find?_eq_none] at hfind
    have hne : ∀ a ∈ o.nodes, o.key a ≠ o.key elm :=
      fun a ha he => hfind a ha (decide_eq_true ((heq a).mp he))
    rw [dif_pos hne]
    simp only [Ordered.place, hlt]
  | some old =>
    have hold := List.find?_some hfind
    have hmem := List.mem_of_find?_eq_some hfind
    rw [dif_neg fun hne => hne old hmem ((heq old).mpr (of_decide_eq_true hold))]

/-- `RB_INSERT` by name. -/
def insertByName (name : ℕ → CString) (fuel : ℕ) (h : Links) (elm : ℕ) : Option Links :=
  (rbInsert (fun a b => strcmp (name a) (name b)) fuel h elm).map Prod.snd

theorem foldlM_insertByName {elms : List ℕ} {size : ℕ} (h : IsTree L o.nodes)
    (hkey : o.key = fun n => codes (name n)) (hnodup : elms.Nodup) (h0 : 0 ∉ elms)
    (hmem : ∀ e ∈ elms, e ∉ o.nodes) (hsize : o.nodes.length + elms.length ≤ size)
    (hfuel : 2 * Nat.log 2 (size + 1) + 2 ≤ fuel) :
    ∃ (L' : Links) (o' : Ordered (List ℕ)), elms.foldlM (insertByName name fuel) L = some L' ∧
      IsTree L' o'.nodes ∧ o'.key = (fun n => codes (name n)) ∧
      o'.nodes = elms.foldl (DeviceTree.rbInsert name) o.nodes ∧ o'.nodes.length ≤ size := by
  induction elms generalizing L o with
  | nil => exact ⟨L, o, rfl, h, hkey, rfl, hsize⟩
  | cons e elms ih =>
    obtain ⟨he, hnodup⟩ := List.nodup_cons.mp hnodup
    rw [List.mem_cons, not_or] at h0
    rw [List.length_cons] at hsize
    have hlog : Nat.log 2 (o.nodes.length + 1) ≤ Nat.log 2 (size + 1) :=
      Nat.log_mono_right (by omega)
    obtain ⟨L₁, heq, htree⟩ := rbInsert_simulates compares_codesCmp h (Ne.symm h0.1)
      (hmem e List.mem_cons_self) (show _ ≤ fuel by omega)
    have hlen := o.length_insert_le e
    have hmem' : ∀ a ∈ elms, a ∉ (o.insert e).2.nodes := by
      intro a ha hin
      rcases Ordered.mem_insert hin with hin | rfl
      · exact hmem a (List.mem_cons_of_mem e ha) hin
      · exact he ha
    obtain ⟨L', o', hrest, htree', hkey', hnodes, hsize'⟩ := ih htree (o.key_insert e ▸ hkey) hnodup
      h0.2 hmem' (by omega)
    refine ⟨L', o', ?_, htree', hkey', ?_, hsize'⟩
    · have hfirst : insertByName name fuel L e = some L₁ := by
        rw [hkey] at heq
        rw [insertByName, show RbTree.rbInsert (fun a b => strcmp (name a) (name b)) fuel L e =
          some ((o.insert e).1, L₁) from heq]
        rfl
      rw [List.foldlM_cons, hfirst]
      exact hrest
    · rw [hnodes, rbInsert_ofNames hkey, List.foldl_cons]

/-- The trees of a device tree node, built by insertions from nothing, hold the
list of the model, and a search by name finds what the model finds. -/
theorem dtTree_macros {elms : List ℕ} (hnodup : elms.Nodup) (h0 : 0 ∉ elms)
    (hfuel : 2 * Nat.log 2 (elms.length + 1) + 2 ≤ fuel) :
    ∃ L, elms.foldlM (insertByName name fuel) unlinked = some L ∧
      IsTree L (elms.foldl (DeviceTree.rbInsert name) []) ∧
      ∀ key, RbTree.rbFind (fun n => strcmp key (name n)) fuel L =
        some ((DeviceTree.rbFind name (elms.foldl (DeviceTree.rbInsert name) []) key).getD 0) := by
  have hempty : IsTree unlinked (Ordered.empty fun n => codes (name n)).nodes := isTree_unlinked
  obtain ⟨L, o, heq, htree, hkey, hnodes, hlen⟩ := foldlM_insertByName hempty rfl hnodup h0
    (fun _ _ => List.not_mem_nil) (Nat.zero_add _).le hfuel
  have hlist : elms.foldl (DeviceTree.rbInsert name) [] = o.nodes := hnodes.symm
  rw [hlist]
  have hlog : Nat.log 2 (o.nodes.length + 1) ≤ Nat.log 2 (elms.length + 1) :=
    Nat.log_mono_right (by omega)
  refine ⟨L, heq, htree, fun key => ?_⟩
  have hfind := rbFind_simulates compares_codesCmp htree (codes key) (show _ ≤ fuel by omega)
  rw [rbFind_ofNames hkey, hkey] at hfind
  exact hfind

/-- Two nodes, inserted in the order opposite to that of their names. -/
theorem twoNames_macros : ∃ L, [1, 2].foldlM (insertByName (fun n => if n = 1 then [0x62] else [0x61]) 8)
      unlinked = some L ∧ IsTree L [2, 1] ∧
    RbTree.rbFind (fun n => strcmp [0x62] (if n = 1 then [0x62] else [0x61])) 8 L = some 1 := by
  obtain ⟨L, heq, htree, hfind⟩ := @dtTree_macros (fun n => if n = 1 then [0x62] else [0x61]) 8 [1, 2]
    (by decide) (by decide) (by decide)
  exact ⟨L, heq, htree, hfind [0x62]⟩

end DeviceTree

end Gandr.RbTree

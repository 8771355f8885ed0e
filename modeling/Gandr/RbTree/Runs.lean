import Gandr.Lib.Links
import Gandr.Lib.Run
import Gandr.RbTree.Walk

/-! What a tree is for: a sequence of nodes in the order of their keys. Whatever
calls are made, the macros answer as the sequence does. The keys of linked nodes
may change between the calls, as long as their order stays. -/

namespace Gandr.RbTree

open RedBlack Links

variable {α : Type} [LinearOrder α]

/-- Nodes in the order of their keys. -/
structure Ordered (α : Type) [LinearOrder α] where
  key : ℕ → α
  nodes : List ℕ
  sorted : nodes.Pairwise fun a b => key a < key b

namespace Ordered

def empty (key : ℕ → α) : Ordered α := ⟨key, [], List.Pairwise.nil⟩

/-- The nodes with a new one in its place. -/
def place (key : ℕ → α) (l : List ℕ) (elm : ℕ) : List ℕ :=
  l.takeWhile (fun n => decide (key n < key elm)) ++
    elm :: l.dropWhile fun n => decide (key n < key elm)

theorem place_eq {key : ℕ → α} {l₁ l₂ : List ℕ} {elm : ℕ} (h₁ : ∀ a ∈ l₁, key a < key elm)
    (h₂ : ∀ b ∈ l₂, key elm < key b) : place key (l₁ ++ l₂) elm = l₁ ++ elm :: l₂ := by
  have htake : l₂.takeWhile (fun n => decide (key n < key elm)) = [] := by
    cases l₂ with
    | nil => rfl
    | cons b l₂ => exact List.takeWhile_cons_of_neg (by simpa using (h₂ b (by simp)).le)
  have hdrop : l₂.dropWhile (fun n => decide (key n < key elm)) = l₂ := by
    cases l₂ with
    | nil => rfl
    | cons b l₂ => exact List.dropWhile_cons_of_neg (by simpa using (h₂ b (by simp)).le)
  rw [place, List.takeWhile_append_of_pos (by simpa using h₁), htake,
    List.dropWhile_append_of_pos (by simpa using h₁), hdrop, List.append_nil]

theorem exists_split {key : ℕ → α} {l : List ℕ} {k : α} (hl : l.Pairwise fun a b => key a < key b)
    (hne : ∀ a ∈ l, key a ≠ k) :
    ∃ l₁ l₂, l = l₁ ++ l₂ ∧ (∀ a ∈ l₁, key a < k) ∧ ∀ b ∈ l₂, k < key b := by
  induction l with
  | nil => exact ⟨[], [], rfl, by simp, by simp⟩
  | cons x l ih =>
    obtain ⟨hx, hl⟩ := List.pairwise_cons.mp hl
    rcases lt_or_gt_of_ne (hne x List.mem_cons_self) with hlt | hgt
    · obtain ⟨l₁, l₂, rfl, h₁, h₂⟩ := ih hl fun a ha => hne a (List.mem_cons_of_mem x ha)
      exact ⟨x :: l₁, l₂, rfl, by simpa [hlt] using h₁, h₂⟩
    · refine ⟨[], x :: l, rfl, by simp, ?_⟩
      intro b hb
      rcases List.mem_cons.mp hb with rfl | hb
      · exact hgt
      · exact hgt.trans (hx b hb)

theorem sorted_place {key : ℕ → α} {l : List ℕ} {elm : ℕ}
    (hl : l.Pairwise fun a b => key a < key b) (hne : ∀ a ∈ l, key a ≠ key elm) :
    (place key l elm).Pairwise fun a b => key a < key b := by
  obtain ⟨l₁, l₂, rfl, h₁, h₂⟩ := exists_split hl hne
  obtain ⟨hl₁, hl₂, h₁₂⟩ := List.pairwise_append.mp hl
  rw [place_eq h₁ h₂, List.pairwise_append, List.pairwise_cons]
  refine ⟨hl₁, ⟨h₂, hl₂⟩, ?_⟩
  intro a ha b hb
  rcases List.mem_cons.mp hb with rfl | hb
  · exact h₁ a ha
  · exact h₁₂ a ha b hb

/-- The node with this key, or null. -/
def find (o : Ordered α) (k : α) : ℕ := (o.nodes.find? fun n => o.key n = k).getD 0

def insert (o : Ordered α) (elm : ℕ) : ℕ × Ordered α :=
  if h : ∀ a ∈ o.nodes, o.key a ≠ o.key elm then
    (0, { o with nodes := place o.key o.nodes elm, sorted := sorted_place o.sorted h })
  else (o.find (o.key elm), o)

theorem perm_place (key : ℕ → α) (l : List ℕ) (elm : ℕ) : (place key l elm).Perm (elm :: l) := by
  have hsplit := List.takeWhile_append_dropWhile (p := fun n => decide (key n < key elm)) (l := l)
  exact List.perm_middle.trans (by rw [hsplit])

theorem mem_insert {o : Ordered α} {n elm : ℕ} (h : n ∈ (o.insert elm).2.nodes) :
    n ∈ o.nodes ∨ n = elm := by
  unfold insert at h
  split_ifs at h
  · exact (List.mem_cons.mp ((perm_place o.key o.nodes elm).mem_iff.mp h)).symm
  · exact .inl h

theorem length_insert_le (o : Ordered α) (elm : ℕ) :
    (o.insert elm).2.nodes.length ≤ o.nodes.length + 1 := by
  unfold insert
  split_ifs
  · exact (perm_place o.key o.nodes elm).length_eq.le
  · exact Nat.le_succ _

theorem key_insert (o : Ordered α) (elm : ℕ) : (o.insert elm).2.key = o.key := by
  unfold insert
  split_ifs <;> rfl

def remove (o : Ordered α) (elm : ℕ) : Ordered α :=
  { o with nodes := o.nodes.erase elm, sorted := o.sorted.sublist List.erase_sublist }

/-- Other keys that keep the order. -/
def rekey (o : Ordered α) (key : ℕ → α) : Ordered α :=
  if h : o.nodes.Pairwise fun a b => key a < key b then ⟨key, o.nodes, h⟩ else o

end Ordered

/-- A use of a tree. -/
inductive Call (α : Type) where
  | insert (elm : ℕ)
  | remove (elm : ℕ)
  | find (k : α)
  | nfind (k : α)
  | next (elm : ℕ)
  | prev (elm : ℕ)
  | min
  | max
  | rekey (key : ℕ → α)

namespace Call

/-- What the sequence answers to a call, and what it becomes. -/
def spec (o : Ordered α) : Call α → ℕ × Ordered α
  | insert elm => o.insert elm
  | remove elm => (elm, o.remove elm)
  | find k => (o.find k, o)
  | nfind k => ((o.nodes.find? fun n => k ≤ o.key n).getD 0, o)
  | next elm => (Gandr.Links.after o.nodes elm, o)
  | prev elm => (Gandr.Links.before o.nodes elm, o)
  | min => (o.nodes.headD 0, o)
  | max => (o.nodes.reverse.headD 0, o)
  | rekey key => (0, o.rekey key)

/-- The macro of a call, with the keys that the comparison reads. -/
def onLinks (cmp : α → α → ℤ) (fuel : ℕ) :
    (ℕ → α) × Links → Call α → Option (ℕ × (ℕ → α) × Links)
  | (key, h), insert elm =>
    (rbInsert (fun a b => cmp (key a) (key b)) fuel h elm).map fun r => (r.1, key, r.2)
  | (key, h), remove elm => (rbRemove fuel h elm).map fun h => (elm, key, h)
  | (key, h), find k => (rbFind (fun a => cmp k (key a)) fuel h).map fun p => (p, key, h)
  | (key, h), nfind k => (rbNfind (fun a => cmp k (key a)) fuel h).map fun p => (p, key, h)
  | (key, h), next elm => (rbNext fuel h elm).map fun p => (p, key, h)
  | (key, h), prev elm => (rbPrev fuel h elm).map fun p => (p, key, h)
  | (key, h), min => (rbMin fuel h).map fun p => (p, key, h)
  | (key, h), max => (rbMax fuel h).map fun p => (p, key, h)
  | (_, h), rekey key => some (0, key, h)

/-- A node is linked when it is inserted only, steps start from linked nodes,
and no more than `size` nodes are linked. -/
def Allowed (size : ℕ) (o : Ordered α) : Call α → Prop
  | insert elm => elm ≠ 0 ∧ elm ∉ o.nodes ∧ o.nodes.length ≤ size
  | remove elm | next elm | prev elm => elm ∈ o.nodes ∧ o.nodes.length ≤ size
  | find _ | nfind _ | min | max => o.nodes.length ≤ size
  | rekey key => o.nodes.Pairwise fun a b => key a < key b

end Call

/-- A comparison as the macros expect it. -/
structure Compares (cmp : α → α → ℤ) : Prop where
  neg : ∀ a b, cmp a b < 0 ↔ a < b
  pos : ∀ a b, 0 < cmp a b ↔ b < a

section Simulation

variable {cmp : α → α → ℤ} {L : Links} {o : Ordered α} {size fuel : ℕ}

theorem Compares.eq_zero (h : Compares cmp) {a b : α} : cmp a b = 0 ↔ b = a := by
  have hneg := h.neg a b
  have hpos := h.pos a b
  constructor
  · intro h0
    rw [h0] at hneg hpos
    exact le_antisymm (not_lt.mp fun hlt => lt_irrefl 0 (hneg.mpr hlt))
      (not_lt.mp fun hlt => lt_irrefl 0 (hpos.mpr hlt))
  · rintro rfl
    simp only [lt_self_iff_false, iff_false] at hneg hpos
    omega

/-- The nodes in order, seen from a key. -/
theorem Compares.cuts (h : Compares cmp) (o : Ordered α) (k : α) :
    Cuts (fun a => cmp k (o.key a)) o.nodes := by
  refine o.sorted.imp fun {a b} hab hle => ?_
  rw [h.neg]
  refine lt_of_le_of_lt (not_lt.mp fun hlt => ?_) hab
  exact absurd ((h.pos k (o.key a)).mpr hlt) (not_lt.mpr hle)

theorem Ordered.nodup (o : Ordered α) : o.nodes.Nodup :=
  o.sorted.imp fun hab => by
    rintro rfl
    exact lt_irrefl _ hab

theorem Ordered.find_eq {a : ℕ} (ha : a ∈ o.nodes) : o.find (o.key a) = a := by
  obtain ⟨l₁, l₂, hl⟩ := List.append_of_mem ha
  have hsorted := o.sorted
  rw [hl, List.pairwise_append] at hsorted
  rw [Ordered.find, hl, List.find?_append, List.find?_eq_none.mpr, List.find?_cons_of_pos (by simp)]
  · rfl
  · intro b hb
    simpa using (hsorted.2.2 b hb a List.mem_cons_self).ne

theorem before_eq {l₁ l₂ : List ℕ} {x : ℕ} (h : (l₁ ++ x :: l₂).Nodup) :
    Gandr.Links.before (l₁ ++ x :: l₂) x = l₁.reverse.headD 0 := by
  have hx := List.nodup_middle.mp h
  rw [List.nodup_cons, List.mem_append, not_or] at hx
  rcases List.eq_nil_or_concat l₁ with rfl | ⟨l, p, rfl⟩
  · exact Gandr.Links.before_head hx.1.2
  · simp only [List.concat_eq_append, List.mem_append, List.mem_singleton, not_or] at hx
    simpa using Gandr.Links.before_append hx.1.1.1 hx.1.1.2

theorem rbRemove_simulates (h : IsTree L o.nodes) {elm : ℕ} (hmem : elm ∈ o.nodes)
    (hfuel : 2 * Nat.log 2 (o.nodes.length + 1) ≤ fuel) :
    ∃ L', rbRemove fuel L elm = some L' ∧ IsTree L' (o.remove elm).nodes := by
  obtain ⟨l₁, l₂, hl⟩ := List.append_of_mem hmem
  have hn := List.nodup_middle.mp (hl ▸ o.nodup)
  rw [List.nodup_cons, List.mem_append, not_or] at hn
  obtain ⟨L', heq, htree, -⟩ := rbRemove_isTree (hl ▸ h) (hl ▸ hfuel)
  refine ⟨L', heq, ?_⟩
  simp only [Ordered.remove, hl, Gandr.Links.erase_append hn.1.1]
  exact htree

theorem rbNext_simulates (h : IsTree L o.nodes) {elm : ℕ} (hmem : elm ∈ o.nodes)
    (hfuel : 2 * Nat.log 2 (o.nodes.length + 1) ≤ fuel) :
    rbNext fuel L elm = some (Gandr.Links.after o.nodes elm) := by
  obtain ⟨l₁, l₂, hl⟩ := List.append_of_mem hmem
  have hn := List.nodup_middle.mp (hl ▸ o.nodup)
  rw [List.nodup_cons, List.mem_append, not_or] at hn
  rw [rbNext_isTree h hfuel hl, hl, Gandr.Links.after_append hn.1.1]

theorem rbPrev_simulates (h : IsTree L o.nodes) {elm : ℕ} (hmem : elm ∈ o.nodes)
    (hfuel : 2 * Nat.log 2 (o.nodes.length + 1) ≤ fuel) :
    rbPrev fuel L elm = some (Gandr.Links.before o.nodes elm) := by
  obtain ⟨l₁, l₂, hl⟩ := List.append_of_mem hmem
  rw [rbPrev_isTree h hfuel hl, hl, before_eq (hl ▸ o.nodup)]

variable (hcmp : Compares cmp) (h : IsTree L o.nodes)
include hcmp h

theorem rbInsert_simulates {elm : ℕ} (h0 : elm ≠ 0) (hmem : elm ∉ o.nodes)
    (hfuel : 2 * Nat.log 2 (o.nodes.length + 1) + 2 ≤ fuel) :
    ∃ L', rbInsert (fun a b => cmp (o.key a) (o.key b)) fuel L elm = some ((o.insert elm).1, L') ∧
      IsTree L' (o.insert elm).2.nodes := by
  rcases rbInsert_isTree (fun a b => cmp (o.key a) (o.key b)) h (hcmp.cuts o (o.key elm)) h0 hmem
    hfuel with
    ⟨a, ha, ha0, heq⟩ | ⟨l₁, l₂, L', hl, h₁, h₂, heq, htree, -⟩
  · have hkey := hcmp.eq_zero.mp ha0
    have hins : o.insert elm = (a, o) := by
      rw [Ordered.insert, dif_neg fun hne => hne a ha hkey, ← hkey, Ordered.find_eq ha]
    rw [hins]
    exact ⟨L, heq, h⟩
  · simp only [hcmp.neg, hcmp.pos] at h₁ h₂
    have hne : ∀ a ∈ o.nodes, o.key a ≠ o.key elm := by
      intro a ha
      rcases List.mem_append.mp (hl ▸ ha) with ha | ha
      · exact (h₁ a ha).ne
      · exact (h₂ a ha).ne'
    rw [Ordered.insert, dif_pos hne]
    refine ⟨L', heq, ?_⟩
    change IsTree L' (Ordered.place o.key o.nodes elm)
    rw [hl, Ordered.place_eq h₁ h₂]
    exact htree

theorem rbFind_simulates (k : α) (hfuel : 2 * Nat.log 2 (o.nodes.length + 1) ≤ fuel) :
    rbFind (fun a => cmp k (o.key a)) fuel L = some (o.find k) := by
  rw [rbFind_isTree h hfuel (hcmp.cuts o k)]
  simp only [hcmp.eq_zero]
  rfl

/-- Each macro answers as the sequence does. -/
theorem onLinks_simulates {call : Call α} (hallowed : Call.Allowed size o call)
    (hfuel : 2 * Nat.log 2 (size + 1) + 2 ≤ fuel) :
    ∃ L', Call.onLinks cmp fuel (o.key, L) call = some ((Call.spec o call).1, (Call.spec o call).2.key, L') ∧
      IsTree L' (Call.spec o call).2.nodes := by
  have hlog : o.nodes.length ≤ size → 2 * Nat.log 2 (o.nodes.length + 1) + 2 ≤ fuel := by
    intro hsize
    have : Nat.log 2 (o.nodes.length + 1) ≤ Nat.log 2 (size + 1) :=
      Nat.log_mono_right (by omega)
    omega
  have hwalk : o.nodes.length ≤ size → 2 * Nat.log 2 (o.nodes.length + 1) ≤ fuel :=
    fun hsize => le_trans (by omega) (hlog hsize)
  cases call with
  | insert elm =>
    obtain ⟨h0, hmem, hsize⟩ := hallowed
    obtain ⟨L', heq, htree⟩ := rbInsert_simulates hcmp h h0 hmem (hlog hsize)
    refine ⟨L', ?_, htree⟩
    rw [Call.onLinks, heq, Call.spec, Ordered.key_insert]
    rfl
  | remove elm =>
    obtain ⟨L', heq, htree⟩ := rbRemove_simulates h hallowed.1 (hwalk hallowed.2)
    refine ⟨L', ?_, htree⟩
    rw [Call.onLinks, heq]
    rfl
  | find k =>
    refine ⟨L, ?_, h⟩
    rw [Call.onLinks, rbFind_simulates hcmp h k (hwalk hallowed)]
    rfl
  | nfind k =>
    refine ⟨L, ?_, h⟩
    rw [Call.onLinks, rbNfind_isTree h (hwalk hallowed) (hcmp.cuts o k)]
    have hle : ∀ a, cmp k (o.key a) ≤ 0 ↔ k ≤ o.key a := by
      intro a
      rw [← not_lt, hcmp.pos, not_lt]
    simp only [hle]
    rfl
  | next elm =>
    refine ⟨L, ?_, h⟩
    rw [Call.onLinks, rbNext_simulates h hallowed.1 (hwalk hallowed.2)]
    rfl
  | prev elm =>
    refine ⟨L, ?_, h⟩
    rw [Call.onLinks, rbPrev_simulates h hallowed.1 (hwalk hallowed.2)]
    rfl
  | min =>
    refine ⟨L, ?_, h⟩
    rw [Call.onLinks, rbMin_isTree h (hwalk hallowed)]
    rfl
  | max =>
    refine ⟨L, ?_, h⟩
    rw [Call.onLinks, rbMax_isTree h (hwalk hallowed)]
    rfl
  | rekey key =>
    have hkey : o.rekey key = ⟨key, o.nodes, hallowed⟩ := dif_pos hallowed
    refine ⟨L, ?_, ?_⟩
    · rw [Call.spec, hkey]
      rfl
    · rw [Call.spec, hkey]
      exact h

end Simulation

/-- A red-black tree answers every sequence of calls as the nodes in the order of
their keys do, and stays a red-black tree of them. With `size` nodes linked no
loop of a call takes more than `2 log (size + 1) + 2` rounds. -/
theorem traceM_onLinks {cmp : α → α → ℤ} {L : Links} {o : Ordered α} (size : ℕ)
    {fuel : ℕ} {calls : List (Call α)} (hcmp : Compares cmp) (h : IsTree L o.nodes)
    (hallowed : Along Call.spec (Call.Allowed size) o calls)
    (hfuel : 2 * Nat.log 2 (size + 1) + 2 ≤ fuel) :
    ∃ L', traceM (Call.onLinks cmp fuel) (o.key, L) calls =
        some ((trace Call.spec o calls).1, (trace Call.spec o calls).2.key, L') ∧
      IsTree L' (trace Call.spec o calls).2.nodes := by
  have hsim : ∀ (m : (ℕ → α) × Links) (o : Ordered α) (call : Call α),
      m.1 = o.key ∧ IsTree m.2 o.nodes → Call.Allowed size o call →
      ∃ m', Call.onLinks cmp fuel m call = some ((Call.spec o call).1, m') ∧
        m'.1 = (Call.spec o call).2.key ∧ IsTree m'.2 (Call.spec o call).2.nodes := by
    rintro ⟨key, M⟩ o call ⟨rfl, hM⟩ hok
    obtain ⟨M', heq, htree⟩ := onLinks_simulates hcmp hM hok hfuel
    exact ⟨(_, M'), heq, rfl, htree⟩
  obtain ⟨⟨key, L'⟩, heq, hkey, htree⟩ := traceM_simulates hsim (s := (o.key, L)) ⟨rfl, h⟩ hallowed
  obtain rfl : key = _ := hkey
  exact ⟨L', heq, htree⟩

/-- No node is linked. -/
def unlinked : Links := ⟨0, fun _ _ => 0, fun _ => 0, fun _ => .black⟩

theorem isTree_unlinked : IsTree unlinked [] :=
  ⟨.nil, ⟨rfl, trivial, by simp [ColorTree.toList, keys]⟩, ⟨rfl, 0, rfl⟩, rfl⟩

theorem three_nodes_answer :
    (trace Call.spec (Ordered.empty fun n : ℕ => n % 4) [.insert 2, .insert 1, .insert 3, .insert 6,
      .remove 2, .next 1]).1 = [0, 0, 0, 2, 2, 3] ∧
    ∃ L', traceM (Call.onLinks (fun a b : ℕ => (a : ℤ) - b) 8) (fun n : ℕ => n % 4, unlinked)
      [.insert 2, .insert 1, .insert 3, .insert 6, .remove 2, .next 1] =
        some ([0, 0, 0, 2, 2, 3], fun n : ℕ => n % 4, L') ∧ IsTree L' [1, 3] := by
  refine ⟨by decide, ?_⟩
  refine traceM_onLinks 3 (o := Ordered.empty fun n : ℕ => n % 4) ⟨?_, ?_⟩ isTree_unlinked ?_
    (by decide)
  · intro a b
    omega
  · intro a b
    omega
  · refine ⟨⟨?_, ?_, ?_⟩, ⟨?_, ?_, ?_⟩, ⟨?_, ?_, ?_⟩, ⟨?_, ?_, ?_⟩, ⟨?_, ?_⟩, ⟨?_, ?_⟩, trivial⟩ <;>
      decide

end Gandr.RbTree

import Gandr.Mmap.AddSpec

/-! An entry strictly inside a stronger one. `fix_overlap` unlinks and frees the
new node, and `mmap_add_entry` goes on to merge around it: `RB_PREV` then reads
the free list link. The map survives unless the node found there is taken for
a neighbour. -/

namespace Gandr.Mmap

/-- The free node that `RB_PREV` finds has the type of `e` and ends where `e`
starts. -/
def StaleMatch (s : State) (e : MemoryMapEntry) : Prop :=
  s.nextFree ≠ 0 ∧ (s.entry s.nextFree).type = e.type ∧
    (s.entry s.nextFree).physicalEnd = e.physicalStart

instance (s : State) (e : MemoryMapEntry) : Decidable (StaleMatch s e) :=
  inferInstanceAs (Decidable (_ ∧ _ ∧ _))

/-- The call adds nothing, and merging around its freed node replaces the tree. -/
def Clobbers (s : State) (e : MemoryMapEntry) : Prop :=
  (∃ m ∈ s.entries, Redundant s.overlapPrecedence e m) ∧ StaleMatch s e

instance (s : State) (e : MemoryMapEntry) : Decidable (Clobbers s e) :=
  inferInstanceAs (Decidable (_ ∧ _))

/-- The linked nodes and what they hold are as before. -/
structure Unchanged (T : Target) (s s' : State) : Prop where
  table : s'.overlapPrecedence = s.overlapPrecedence
  pages : s'.nodePages = s.nodePages
  tree : s'.tree = s.tree
  owned : ∃ free, Owned T s' [] free
  entry : ∀ m ∈ s.tree, s'.entry m = s.entry m

section Redundant

variable {T : Target} {s : State} {e : MemoryMapEntry} {l l₂ : List Ptr} {p : Ptr}

/-- A redundant entry lies in the entry in front of it. -/
theorem redundant_split (h : Tidy s.entries) {m : MemoryMapEntry} (hm : m ∈ s.entries)
    (hr : Redundant s.overlapPrecedence e m) :
    ∃ l p l₂, s.tree = (l ++ [p]) ++ l₂ ∧ s.entry p = m ∧
      (∀ k ∈ l ++ [p], (s.entry k).physicalStart < e.physicalStart) ∧
      ∀ k ∈ l₂, Before e (s.entry k) := by
  obtain ⟨n, hn, rfl⟩ := List.mem_map.mp hm
  obtain ⟨l, l₂, htree⟩ := List.append_of_mem hn
  obtain ⟨hr₁, hr₂, -⟩ := hr
  have ht := h
  rw [State.entries, htree, List.map_append, List.map_cons, tidy_append, tidy_cons] at ht
  obtain ⟨t₁, ⟨-, hb, -⟩, hc⟩ := ht
  refine ⟨l, n, l₂, by simpa using htree, rfl, ?_, ?_⟩
  · intro k hk
    rcases List.mem_append.mp hk with hk | hk
    · have hg := t₁.good _ (List.mem_map_of_mem hk)
      have hkn := hc _ (List.mem_map_of_mem hk) _ List.mem_cons_self
      have := hg.nonempty
      unfold Before at hkn
      omega
    · obtain rfl := List.mem_singleton.mp hk
      exact hr₁
  · intro k hk
    have := hb _ (List.mem_map_of_mem hk)
    unfold Before at this ⊢
    omega

/-- `merge_adjacent` on a node that was just freed. -/
theorem mergeAdjacent_freed {s : State} {n : Ptr} (hn : n ∉ s.tree)
    (hprev : s.rbeLeft n = 0 ∨ ¬ Mergeable s (s.rbeLeft n) n) :
    mergeAdjacent s n = { s with staleCalls := s.staleCalls + 2 } := by
  have huse : (s.use n).use n = { s with staleCalls := s.staleCalls + 2 } := by
    simp [State.use, hn]
  have hnext : Links.after s.tree n = 0 := Links.after_not_mem hn
  have hstay : ¬ (s.rbeLeft n ≠ 0 ∧ Mergeable s (s.rbeLeft n) n) := by tauto
  simp only [mergeAdjacent, huse, rbPrev, rbNext, if_neg hn, hnext]
  simp only [Mergeable] at hstay ⊢
  simp [hstay]

theorem addEntry_redundant (h : WellFormed T s) (hg : Good e) {m : MemoryMapEntry}
    (hm : m ∈ s.entries) (hr : Redundant s.overlapPrecedence e m) (hstale : ¬ StaleMatch s e)
    (fuel : ℕ) : Succeeds s (Unchanged T s) (mmapAddEntry T (fuel + 3) e s) := by
  obtain ⟨free, ho⟩ := h.owned
  obtain ⟨l, p, l₂, htree, rfl, hbelow, hafter⟩ := redundant_split h.tidy hm hr
  have hne := hg.nonempty
  have hmono := (addEntry_monotone T (fuel + 2)).1
  have hp : p ∈ s.tree := by simp [htree]
  have htidy := h.tidy
  rw [State.entries, htree, List.map_append, List.map_append, tidy_append, tidy_append] at htidy
  obtain ⟨⟨-, htp, -⟩, ht₂, hc⟩ := htidy
  have hgp : Good (s.entry p) := htp.good _ (by simp)
  rw [mmapAddEntry_aligned T (fuel + 2) hg]
  refine insertEntry_endsIn rfl ho hmono ?_ ?_
  · rintro t ⟨h₁, h₂, h₃, ⟨free, h₄⟩, h₅⟩
    exact ⟨h₁, h₂, h₃, ⟨free, h₄.bumpKey⟩, h₅⟩
  intro n s₂ hi hlast
  obtain ⟨free₂, ho₂⟩ := hi.owned
  obtain ⟨hn0, hnt, hnf⟩ := ho₂.fresh
  obtain ⟨hins, free₃, ho₃⟩ := hi.link
    (by simpa using htree : s.tree = [] ++ ((l ++ [p]) ++ l₂)) (by simpa using hbelow)
    (fun k hk => by have := hafter k hk; unfold Before at this; omega)
  simp only [place, hins, ne_eq, not_true, if_false, placeNew]
  generalize hs₃ : s₂.link n ([] ++ ((l ++ [p]) ++ n :: l₂)) = s₃ at *
  have htree₃ : s₃.tree = l ++ p :: n :: l₂ := by
    rw [← hs₃]
    simp
  have hmem : ∀ k ∈ s.tree, s₃.entry k = s.entry k := by
    intro k hk
    rw [← hs₃]
    exact hi.entry_of_mem hk
  have hentry : s₃.entry n = e := by
    rw [← hs₃]
    exact hi.entry_self
  have htable : s₃.overlapPrecedence = s.overlapPrecedence := by
    rw [← hs₃]
    exact hi.table
  have hl₂ : ∀ k ∈ l₂, s₃.entry k = s.entry k := fun k hk => hmem k (by simp [htree, hk])
  have hpre : FixPre T s₃ (l ++ [p]) n l₂ := by
    refine ⟨htable ▸ h.complete, ⟨free₃, ho₃⟩, by simpa using htree₃, hentry ▸ hg, ?_, ?_, ?_⟩
    · rw [List.map_congr_left hl₂]
      exact ht₂
    · intro k hk j hj
      have h₁ := hbelow k hk
      have h₂ := hafter j hj
      unfold Before at h₂
      rw [hmem k (by rw [htree]; exact List.mem_append_left _ hk), hl₂ j hj]
      omega
    · intro k hk
      have h₂ := hafter k hk
      unfold Before at h₂
      rw [hentry, hl₂ k hk]
      omega
  have hfirst : fixOverlap T (fuel + 2) n s₃ = .returned s₃ := by
    refine fixOverlap_apart hpre ?_ (fuel + 1)
    intro k hk
    rw [hentry, hl₂ k hk]
    exact hafter k hk
  have hprev : rbPrev s₃ n = p := rbPrev_append ho₃ htree₃
  have hdrop : FixPre T (dropped s₃ l p n l₂) l p l₂ := by
    have hp₃ : FixPre T s₃ l p (n :: l₂) := by
      refine ⟨hpre.complete, hpre.owned, htree₃, ?_, ?_, ?_, ?_⟩
      · rw [hmem p hp]
        exact hgp
      · rw [List.map_cons, tidy_cons, hentry, List.map_congr_left hl₂]
        refine ⟨hg, ?_, ht₂⟩
        intro b hb
        obtain ⟨k, hk, rfl⟩ := List.mem_map.mp hb
        exact hafter k hk
      · intro k hk j hj
        rw [hmem k (by simp [htree, hk])]
        have h₁ := hbelow k (by simp [hk])
        rcases List.mem_cons.mp hj with rfl | hj
        · rw [hentry]
          exact h₁
        · have h₂ := hafter j hj
          unfold Before at h₂
          rw [hl₂ j hj]
          omega
      · intro k hk
        rw [hmem p hp]
        have h₁ := hbelow p (by simp)
        rcases List.mem_cons.mp hk with rfl | hk
        · rw [hentry]
          exact h₁
        · have h₂ := hafter k hk
          unfold Before at h₂
          rw [hl₂ k hk]
          omega
    exact hp₃.dropped
  have hagain : fixOverlap T (fuel + 1) p (dropped s₃ l p n l₂) =
      .returned (dropped s₃ l p n l₂) := by
    refine fixOverlap_apart hdrop ?_ fuel
    intro k hk
    have hbk := hc _ (List.mem_append_right _ (List.mem_map_of_mem (List.mem_singleton_self p)))
      _ (List.mem_map_of_mem hk)
    change Before (s₃.entry p) (s₃.entry k)
    rw [hmem p hp, hl₂ k hk]
    exact hbk
  have hsecond : fixOverlap T (fuel + 2) p s₃ = .returned (dropped s₃ l p n l₂) := by
    obtain ⟨hr₁, hr₂, hr₃⟩ := hr
    rw [← htable] at hr₃
    rw [fixOverlap, fixOverlapBody_overlap ho₃ hpre.complete htree₃ (by rw [hmem p hp]; exact hgp)
      (by rw [hentry]; exact hg) (by rw [hmem p hp, hentry]; exact hr₁)
      (by rw [hmem p hp, hentry]; unfold Before; omega)]
    simp only [hmem p hp, hentry, hr₃, hr₂, if_true, if_neg (not_lt.mpr hr₂.le)]
    exact hagain
  rw [hfirst]
  simp only [Outcome.andThen, hprev, hsecond]
  have hleft : (dropped s₃ l p n l₂).rbeLeft n = s.nextFree := by
    change Function.update s₃.rbeLeft n s₃.lastFreed n = _
    rw [Function.update_self, ← hs₃]
    exact hlast
  have hnext : (dropped s₃ l p n l₂).rbeLeft n ≠ 0 → s₃.entry s.nextFree = s.entry s.nextFree := by
    intro hn
    rw [hleft] at hn
    rw [← hs₃]
    change s₂.entry s.nextFree = _
    rw [hi.entry]
    refine Function.update_of_ne ?_ _ _
    rintro heq
    -- the free list that is left starts with this node
    have hchain := ho₂.chain
    rw [hlast, heq] at hchain
    cases free₂ with
    | nil => exact hn0 hchain
    | cons x rest => exact hnf (by simp [hchain.1])
  have hnd : n ∉ (dropped s₃ l p n l₂).tree := by
    change n ∉ l ++ p :: l₂
    rw [hi.tree, htree] at hnt
    simpa using hnt
  rw [mergeAdjacent_freed hnd]
  · refine .returned fun _ => ?_
    obtain ⟨free₄, ho₄⟩ := hdrop.owned
    refine ⟨?_, ?_, ?_, ⟨free₄, ⟨ho₄.chain, ho₄.nodup, ho₄.null, ho₄.total⟩⟩, ?_⟩
    · exact htable
    · change s₃.nodePages = _
      rw [← hs₃]
      exact hi.pages
    · change l ++ p :: l₂ = _
      simpa using htree.symm
    · intro k hk
      exact hmem k hk
  · by_cases h0 : (dropped s₃ l p n l₂).rbeLeft n = 0
    · exact .inl h0
    · refine .inr ?_
      rintro ⟨m₁, m₂⟩
      change (s₃.entry _).type = (s₃.entry n).type at m₁
      change (s₃.entry _).physicalEnd = (s₃.entry n).physicalStart at m₂
      rw [hleft, hnext h0, hentry] at m₁ m₂
      rw [hleft] at h0
      exact hstale ⟨h0, m₁, m₂⟩

end Redundant

end Gandr.Mmap

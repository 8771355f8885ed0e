import Gandr.Mmap.Alloc

/-! `gd_alloc_pages` on a map whose node pool is empty. A page of conventional
memory is then taken for nodes while the allocation is under way, and it can be
a page of the very entry the allocation is carving from. -/

namespace Gandr.Mmap

/-- No byte of a linked node lies in memory that the map gives out. -/
def NodesHeld (T : Target) (s : State) : Prop :=
  ∀ m ∈ s.tree, ∀ i < T.sizeofEntry, typeAt s.entries (m + i) ≠ some .conventionalMemory

/-- The page for nodes is the last one of `e`; otherwise it is the first one. -/
def TakesLast (s : State) (e : Ptr) : Prop :=
  (s.entry e).size ≠ 4096 ∧ ¬ PrevFits s .loaderData e (rbPrev s e) ∧
    NextFits s .loaderData e (rbNext s e)

instance (s : State) (e : Ptr) : Decidable (TakesLast s e) :=
  inferInstanceAs (Decidable (_ ∧ _ ∧ _))

/-- The page that `e` loses to the node pool. -/
def nodePage (s : State) (e : Ptr) : ℕ :=
  if TakesLast s e then (s.entry e).physicalStart + (s.entry e).size - 4096
  else (s.entry e).physicalStart

section TakePage

variable {T : Target} {s : State} {free : List Ptr} {page : ℕ}

theorem mem_slots_takeNodePage {x : Ptr} (hx : x ∈ slots T (takeNodePage s page T.slotsPerPage)) :
    page ≤ x ∧ x < page + 4096 := by
  obtain ⟨i, hi, rfl⟩ := List.mem_map.mp hx
  have hlt : i < 4096 / T.sizeofEntry := List.mem_range.mp hi
  have hle : (i + 1) * T.sizeofEntry ≤ 4096 :=
    le_trans (Nat.mul_le_mul_right _ hlt) (Nat.div_mul_le_self ..)
  have hpos := T.sizeofEntry_pos
  rw [Nat.add_mul, Nat.one_mul] at hle
  refine ⟨Nat.le_add_right .., Nat.add_lt_add_left (lt_of_lt_of_le ?_ hle) page⟩
  exact Nat.lt_add_of_pos_right hpos

/-- A dry pool owns the page it is given, if no linked node is in it. -/
theorem Owned.takeNodePage (ho : Owned T s [] free) (hf : s.lastFreed = 0) (h0 : page ≠ 0)
    (hout : ∀ m ∈ s.tree, ¬ (page ≤ m ∧ m < page + 4096)) :
    Owned T (takeNodePage s page T.slotsPerPage) [] [] := by
  generalize hs : Mmap.takeNodePage s page T.slotsPerPage = s'
  have htree : s'.tree = s.tree := hs ▸ rfl
  have hslots : ∀ x ∈ slots T s', page ≤ x ∧ x < page + 4096 := by
    intro x hx
    rw [← hs] at hx
    exact mem_slots_takeNodePage hx
  refine ⟨?_, ?_, ?_, ?_⟩
  · rw [← hs]
    exact hf
  · simp only [List.append_nil, htree]
    refine List.nodup_append.mpr ⟨ho.tree_nodup, slots_nodup T s', ?_⟩
    rintro m hm x hx rfl
    exact hout m hm (hslots m hx)
  · simp only [List.append_nil, htree, List.mem_append, not_or]
    exact ⟨fun hm => ho.ne_null hm rfl, fun hx => h0 (by have := hslots 0 hx; omega)⟩
  · have hlen : (slots T s').length = T.slotsPerPage := by
      rw [← hs]
      simp [slots, Mmap.takeNodePage]
    have hcap : capacity T s' = capacity T s + T.slotsPerPage := by
      rw [← hs]
      simp only [capacity, Mmap.takeNodePage, List.length_cons]
      ring
    have := ho.length_tree
    simp only [List.append_nil, List.length_append, htree, hlen, hcap]
    omega

/-- Linking a node does not look at the pool. -/
theorem rbInsert_allocNext (s : State) (n a : Ptr) :
    (rbInsert { s with allocNext := a } n).2 = { (rbInsert s n).2 with allocNext := a } := by
  unfold rbInsert
  dsimp only
  cases s.tree.find? fun m => decide ((s.entry m).physicalStart = (s.entry n).physicalStart) <;> rfl

theorem sliceNew_allocNext (s : State) (m n : Ptr) (t : MemoryType) (k a : ℕ) :
    sliceNew { s with allocNext := a } m n t k = { sliceNew s m n t k with allocNext := a } := by
  unfold sliceNew
  dsimp only [State.setEntry]
  exact rbInsert_allocNext ((s.setEntry n _).setEntry m _) n a

theorem sliceNew_issue (s : State) (page slots : ℕ) (m n : Ptr) (t : MemoryType) (k : ℕ) :
    sliceNew ((takeNodePage s page slots).issue T) m n t k =
      { sliceNew (takeNodePage s page (slots - 1)) m n t k with
        allocNext := (sliceNew (takeNodePage s page (slots - 1)) m n t k).allocNext +
          T.sizeofEntry } := by
  have hnext : (sliceNew (takeNodePage s page (slots - 1)) m n t k).allocNext = page :=
    congrArg State.allocNext (sliceNew_allocNext (takeNodePage s page (slots - 1)) m n t k page)
  rw [hnext]
  exact sliceNew_allocNext (takeNodePage s page (slots - 1)) m n t k _

theorem sliceNext_takeNodePage (s : State) (page slots : ℕ) (m n : Ptr) (k : ℕ) :
    sliceNext (takeNodePage s page slots) m n k = takeNodePage (sliceNext s m n k) page slots :=
  rfl

theorem sliceNext_entry {m n : Ptr} (hne : m ≠ n) (k : ℕ) :
    (sliceNext s m n k).entry m =
      { s.entry m with size := Word.sub 64 (s.entry m).size k } := by
  unfold sliceNext
  dsimp only [State.setEntry]
  rw [Function.update_self, Function.update_of_ne hne]

end TakePage

/-- The loop stops at the first conventional entry. -/
theorem refill_search (T : Target) (s : State) (l : List Ptr) :
    refill T s l = s ∨ ∃ l₁ e l₂, l = l₁ ++ e :: l₂ ∧
      (∀ k ∈ l₁, (s.entry k).type ≠ .conventionalMemory) ∧
      (s.entry e).type = .conventionalMemory ∧
      Word.add 64 (s.entry e).physicalStart 4096 ≤ T.uintptrMax ∧
      refill T s l = refillFrom T s e := by
  induction l with
  | nil => exact .inl rfl
  | cons e rest ih =>
    rw [refill]
    split_ifs with h₁ h₂
    · exact .inl rfl
    · exact .inr ⟨[], e, rest, rfl, by simp, h₂, not_lt.mp h₁, rfl⟩
    · rcases ih with ih | ⟨l₁, k, l₂, rfl, hk, h₃⟩
      · exact .inl ih
      · exact .inr ⟨e :: l₁, k, l₂, rfl, List.forall_mem_cons.mpr ⟨h₂, hk⟩, h₃⟩

namespace Carving

variable {T : Target} {s : State} {q r : List Ptr} {e : Ptr}

/-- `e` is the first conventional entry. -/
theorem find (h : Carving T s .loaderData 4096 q e r)
    (hfirst : ∀ k ∈ q, (s.entry k).type ≠ .conventionalMemory) :
    s.tree.find? (fun k => decide ((s.entry k).type = .conventionalMemory)) = some e := by
  rw [h.tree, List.find?_append, List.find?_eq_none.mpr (by simpa using hfirst)]
  simp [h.conventional]

/-- The page is not at address 0. -/
theorem nodePage_ne_zero (h : Carving T s .loaderData 4096 q e r)
    (hnull : (s.entry e).physicalStart ≠ 0 ∨ TakesLast s e) : nodePage s e ≠ 0 := by
  have hsize := h.size
  unfold nodePage
  split_ifs with hlast
  · have := hlast.1
    omega
  · exact hnull.resolve_right hlast

/-- The page is one of `e`. -/
theorem nodePage_bounds (h : Carving T s .loaderData 4096 q e r) :
    (s.entry e).physicalStart ≤ nodePage s e ∧
      nodePage s e + 4096 ≤ (s.entry e).physicalStart + (s.entry e).size := by
  have := h.size
  unfold nodePage
  split_ifs <;> omega

/-- Where the last page goes to the entry behind, that entry then starts there. -/
theorem last_start (h : Carving T s .loaderData 4096 q e r) (hsize : (s.entry e).size ≠ 4096)
    (hnext : NextFits s .loaderData e (rbNext s e)) (hmax : ¬ T.uintptrMax < (s.entry e).physicalEnd) :
    ((sliceNext s e (rbNext s e) 4096).entry (rbNext s e)).physicalStart =
      (s.entry e).physicalStart + (s.entry e).size - 4096 := by
  obtain ⟨-, hg, -⟩ := h.tidy
  have hle := h.size
  obtain ⟨nx, r', rfl, hx, htype, hend⟩ := h.wellFormed.nextFits h.tree hnext
  rw [hg.physicalEnd] at hmax
  obtain ⟨-, hstart, -⟩ := h.back (by omega) htype hend (not_lt.mp hmax)
  rw [hx, hstart, hend]

/-- The ways to take a page, on the state that has handed it to the pool. -/
theorem refillFrom_cases (h : Carving T s .loaderData 4096 q e r) {s₀ : State}
    (hs₀ : takeNodePage s (nodePage s e) T.slotsPerPage = s₀) :
    refillFrom T s e = s ∨
    ((s.entry e).size = 4096 ∧ nodePage s e = (s.entry e).physicalStart ∧ refillFrom T s e =
      (mergeAdjacent (s₀.setEntry e { s.entry e with type := .loaderData }) e).bumpKey) ∨
    ((s.entry e).size ≠ 4096 ∧ nodePage s e = (s.entry e).physicalStart ∧
      PrevFits s .loaderData e (rbPrev s e) ∧
      refillFrom T s e = (slicePrev s₀ e (rbPrev s e) 4096).bumpKey) ∨
    (TakesLast s e ∧ (s.entry e).physicalStart + (s.entry e).size ≤ T.uintptrMax ∧
      refillFrom T s e = (sliceNext s₀ e (rbNext s e) 4096).bumpKey) ∨
    ((s.entry e).size ≠ 4096 ∧ nodePage s e = (s.entry e).physicalStart ∧
      ¬ PrevFits s .loaderData e (rbPrev s e) ∧
      refillFrom T s e = (sliceNew (s₀.issue T) e (nodePage s e) .loaderData 4096).bumpKey) := by
  obtain ⟨-, hg, -⟩ := h.tidy
  have hptr : T.toPtr (s.entry e).physicalStart = (s.entry e).physicalStart :=
    toPtr_eq T (by have := h.below; omega)
  have hfirst : ¬ TakesLast s e → nodePage s e = (s.entry e).physicalStart := fun hl => if_neg hl
  unfold refillFrom
  dsimp only
  rw [hptr]
  by_cases h₁ : (s.entry e).size = 4096
  · have hp := hfirst fun hl => hl.1 h₁
    rw [if_pos h₁, ← hs₀, hp]
    exact .inr (.inl ⟨h₁, rfl, rfl⟩)
  rw [if_neg h₁]
  by_cases h₂ : PrevFits s .loaderData e (rbPrev s e)
  · have hp := hfirst fun hl => hl.2.1 h₂
    rw [if_pos h₂, ← hs₀, hp]
    exact .inr (.inr (.inl ⟨h₁, rfl, h₂, rfl⟩))
  rw [if_neg h₂]
  by_cases h₃ : NextFits s .loaderData e (rbNext s e)
  · rw [if_pos h₃]
    by_cases h₄ : T.uintptrMax < (s.entry e).physicalEnd
    · exact .inl (if_pos h₄)
    have hlast : TakesLast s e := ⟨h₁, h₂, h₃⟩
    have hp : nodePage s e = (s.entry e).physicalStart + (s.entry e).size - 4096 := if_pos hlast
    have hend := hg.physicalEnd
    rw [if_neg h₄, h.last_start h₁ h₃ h₄, toPtr_eq T (by omega), ← hs₀, hp,
      sliceNext_takeNodePage]
    exact .inr (.inr (.inr (.inl ⟨hlast, by omega, rfl⟩)))
  · have hp := hfirst fun hl => h₃ hl.2.2
    rw [if_neg h₃, ← hs₀, hp, sliceNew_issue]
    exact .inr (.inr (.inr (.inr ⟨h₁, rfl, h₂, rfl⟩)))

theorem refillFrom_pages (h : Carving T s .loaderData 4096 q e r) :
    refillFrom T s e = s ∨
      (refillFrom T s e).nodePages = nodePage s e :: s.nodePages := by
  rcases h.refillFrom_cases rfl with heq | ⟨-, -, heq⟩ | ⟨-, -, -, heq⟩ | ⟨-, -, heq⟩ |
    ⟨-, -, -, heq⟩
  · exact .inl heq
  · rw [heq]
    exact .inr (congrArg (fun p => p.2.2) (pool_mergeAdjacent _ _))
  · rw [heq]
    exact .inr rfl
  · rw [heq]
    exact .inr rfl
  · rw [heq]
    exact .inr (congrArg (fun p => p.2.2) (pool_sliceNew _ _ _ _ _))

/-- A page is taken: the map records it as loader data and the pool owns it. -/
theorem refilled (h : Carving T s .loaderData 4096 q e r) (hf : s.lastFreed = 0)
    (hheld : NodesHeld T s) (h0 : nodePage s e ≠ 0) :
    refillFrom T s e = s ∨
    (Carved T (takeNodePage s (nodePage s e) T.slotsPerPage) (refillFrom T s e)
        .loaderData e (nodePage s e) 4096 ∧
      (refillFrom T s e).allocatable ≠ 0 ∧
      (Maximal s.entries → Maximal (refillFrom T s e).entries)) := by
  obtain ⟨free, ho⟩ := h.wellFormed.owned
  obtain ⟨hq, hg, -⟩ := h.tidy
  obtain ⟨hlo, hhi⟩ := h.nodePage_bounds
  have hsize := h.size
  generalize hs₀ : takeNodePage s (nodePage s e) T.slotsPerPage = s₀
  have hout : ∀ m ∈ s.tree, ¬ (nodePage s e ≤ m ∧ m < nodePage s e + 4096) := by
    rintro m hm ⟨h₁, h₂⟩
    exact hheld m hm 0 T.sizeofEntry_pos (h.was (hlo.trans h₁) (lt_of_lt_of_le h₂ hhi))
  have ho₀ : Owned T s₀ [] [] := hs₀ ▸ ho.takeNodePage hf h0 hout
  have hsame : s₀.tree = s.tree ∧ s₀.entry = s.entry ∧ s₀.overlapPrecedence = s.overlapPrecedence ∧
      s₀.allocNext = nodePage s e ∧ s₀.allocatable = T.slotsPerPage := by
    rw [← hs₀]
    exact ⟨rfl, rfl, rfl, rfl, rfl⟩
  obtain ⟨htree, hentry, htable, hnext, hslots⟩ := hsame
  have hentries : s₀.entries = s.entries := by rw [State.entries, htree, hentry, State.entries]
  have hslots2 : 2 ≤ s₀.allocatable :=
    hslots ▸ (Nat.le_div_iff_mul_le T.sizeofEntry_pos).mpr T.slots_page
  have h₀ : Carving T s₀ .loaderData 4096 q e r :=
    ⟨⟨htable ▸ h.wellFormed.complete, ⟨[], ho₀⟩, hentries ▸ h.wellFormed.tidy⟩, htree ▸ h.tree,
      hentry ▸ h.conventional, h.pos, h.aligned, hentry ▸ h.size, hentry ▸ h.below⟩
  rcases h.refillFrom_cases hs₀ with heq | ⟨h₁, hp, heq⟩ | ⟨h₁, hp, h₂, heq⟩ | ⟨h₁, h₂, heq⟩ |
    ⟨h₁, hp, h₂, heq⟩
  · exact .inl heq
  all_goals right
  · rw [heq, hp, ← hentry]
    obtain ⟨hc, hm⟩ := h₀.whole (by rw [hentry, h₁])
    refine ⟨hc, ?_, fun hmax => hm (hentries ▸ hmax)⟩
    have hpool := congrArg (fun p => p.2.1) (pool_mergeAdjacent
      (s₀.setEntry e { s₀.entry e with type := .loaderData }) e)
    exact ne_of_eq_of_ne hpool (by change s₀.allocatable ≠ 0; omega)
  · obtain ⟨q', p, rfl, hrb, htype, hend⟩ := h.wellFormed.prevFits h.tree h₂
    rw [heq, hp, hrb, ← hentry]
    obtain ⟨hc, hm⟩ := h₀.front (by rw [hentry]; omega) (hentry ▸ htype) (hentry ▸ hend)
    exact ⟨hc, by change s₀.allocatable ≠ 0; omega, fun hmax => hm (by decide) (hentries ▸ hmax)⟩
  · obtain ⟨nx, r', rfl, hrb, htype, hend⟩ := h.wellFormed.nextFits h.tree h₁.2.2
    have hp : nodePage s e = (s.entry e).physicalStart + (s.entry e).size - 4096 := if_pos h₁
    have hsz := h₁.1
    rw [heq, hrb, hp, hend, ← hentry]
    obtain ⟨hc, -, hm⟩ := h₀.back (by rw [hentry]; omega) (hentry ▸ htype) (hentry ▸ hend)
      (hentry ▸ h₂)
    exact ⟨hc, by change s₀.allocatable ≠ 0; omega, fun hmax => hm (by decide) (hentries ▸ hmax)⟩
  · have hprev : ¬ PrevFits s₀ .loaderData e (rbPrev s₀ e) := by
      rw [← hs₀]
      exact h₂
    obtain ⟨hc, -, hm⟩ := h₀.fresh (by rw [hentry]; omega) (ho₀.issue (by omega)) rfl rfl ⟨rfl, rfl, rfl⟩
    have hstart : (s₀.entry e).physicalStart = nodePage s e := by rw [hentry, hp]
    rw [hstart, hnext] at hc
    rw [hnext] at hm
    rw [heq]
    refine ⟨hc, ?_, fun hmax => hm (by decide) (hentries ▸ hmax) hprev⟩
    have hpool := congrArg (fun p => p.2.1)
      (pool_sliceNew (s₀.issue T) e (nodePage s e) .loaderData 4096)
    exact ne_of_eq_of_ne hpool (by change s₀.allocatable - 1 ≠ 0; omega)

/-- What is left of an entry that lost its last page. -/
theorem refillFrom_last (h : Carving T s .loaderData 4096 q e r) (hlast : TakesLast s e)
    (hne : refillFrom T s e ≠ s) :
    (refillFrom T s e).tree = s.tree ∧
      (refillFrom T s e).entry e =
        { s.entry e with size := Word.sub 64 (s.entry e).size 4096 } := by
  rcases h.refillFrom_cases rfl with heq | ⟨h₁, -⟩ | ⟨-, -, h₁, -⟩ | ⟨-, -, heq⟩ |
    ⟨-, h₁, -, -⟩
  · exact absurd heq hne
  · exact absurd h₁ hlast.1
  · exact absurd h₁ hlast.2.1
  · obtain ⟨free, ho⟩ := h.wellFormed.owned
    obtain ⟨nx, r', rfl, hx, -, -⟩ := h.wellFormed.nextFits h.tree hlast.2.2
    have hne' : e ≠ nx := by
      rintro rfl
      exact (ho.not_mem h.tree).2 List.mem_cons_self
    rw [heq, hx]
    exact ⟨rfl, sliceNext_entry hne' _⟩
  · have hp : nodePage s e = (s.entry e).physicalStart + (s.entry e).size - 4096 := if_pos hlast
    have hle := h.size
    have hsz := hlast.1
    omega

/-- The node of a wanted type that ends here is the one in front. -/
theorem prevFits_of_typeAt {type t : MemoryType} {n : ℕ} (h : Carving T s type n q e r)
    (h0 : 0 < (s.entry e).physicalStart)
    (ht : typeAt s.entries ((s.entry e).physicalStart - 1) = some t) :
    PrevFits s t e (rbPrev s e) := by
  obtain ⟨free, ho⟩ := h.wellFormed.owned
  obtain ⟨hq, -, -, hb₁, hb₂, -⟩ := h.tidy
  obtain ⟨m, hm, h₁, h₂, h₃⟩ := typeAt_some ht
  have hmq : m ∈ q.map s.entry := by
    rw [h.entries] at hm
    rcases List.mem_append.mp hm with hm | hm
    · exact hm
    rcases List.mem_cons.mp hm with rfl | hm
    · omega
    · have := hb₂ m hm
      unfold Before at this
      omega
  have hmb := hb₁ m hmq
  rcases List.eq_nil_or_concat q with rfl | ⟨q', p, rfl⟩
  · simp at hmq
  rw [List.concat_eq_append] at h hq hb₁ hmq
  rw [List.map_append] at hq hmq
  have hgp : Good (s.entry p) := hq.good _ (by simp)
  have hpe := hb₁ (s.entry p) (by simp)
  have hp : rbPrev s e = p :=
    rbPrev_append ho (by simpa using h.tree : s.tree = q' ++ p :: e :: r)
  have hmp : m = s.entry p := by
    rcases List.mem_append.mp hmq with hmq | hmq
    · have := (tidy_append.mp hq).2.2 m hmq (s.entry p) (by simp)
      have := hgp.nonempty
      unfold Before at *
      omega
    · simpa using hmq
  subst hmp
  refine ⟨hp ▸ ho.ne_null (by simp [h.tree]), hp ▸ h₃, ?_⟩
  rw [hp, hgp.physicalEnd]
  unfold Before at hmb
  omega

end Carving

/-- The page is none of address 0 and none of the returned range, which the map
records as one entry; all else is as it was, and the map is well formed. -/
structure RefillSafe (T : Target) (s s' : State) (type : MemoryType) (r n page : ℕ) : Prop where
  notNull : page ≠ 0
  apart : r + n ≤ page ∨ page + 4096 ≤ r
  recorded : ∃ m ∈ s'.tree, range (s'.entry m) = (r, n, type)
  was : ∀ x, page ≤ x → x < page + 4096 → typeAt s.entries x = some .conventionalMemory
  held : ∀ x, page ≤ x → x < page + 4096 → typeAt s'.entries x = some .loaderData
  rest : ∀ x, ¬ (r ≤ x ∧ x < r + n) → ¬ (page ≤ x ∧ x < page + 4096) →
    typeAt s'.entries x = typeAt s.entries x
  wellFormed : WellFormed T s'
  table : s'.overlapPrecedence = s.overlapPrecedence
  stale : s'.staleCalls = s.staleCalls
  maximal : type ≠ .conventionalMemory → Maximal s.entries → Maximal s'.entries

/-- The page taken from the first conventional entry is not at address 0, and
where the allocation carves from that entry too, the page is its last one and
more than that stays of it. -/
def RefillClear (s : State) (n : ℕ) : Prop :=
  ∃ e, s.tree.find? (fun k => decide ((s.entry k).type = .conventionalMemory)) = some e ∧
    ((s.entry e).physicalStart ≠ 0 ∨ TakesLast s e) ∧
    (n ≤ (s.entry e).size → TakesLast s e ∧ n + 8192 ≤ (s.entry e).size)

section Allocate

variable {T : Target} {s : State} {type : MemoryType} {n : ℕ}

/-- What `mmap_alloc_entry` does on a dry pool. -/
theorem mmapAllocEntry_dry {s₂ : State} {new : Ptr} (hwf : WellFormed T s) (hf : s.lastFreed = 0)
    (hk : s.allocatable = 0) (h : mmapAllocEntry T s = .ok (new, s₂)) :
    ∃ q e r, Carving T s .loaderData 4096 q e r ∧
      (∀ k ∈ q, (s.entry k).type ≠ .conventionalMemory) ∧ refillFrom T s e ≠ s ∧
      refill T s s.tree = refillFrom T s e ∧ new = (refillFrom T s e).allocNext ∧ s₂ = (refillFrom T s e).issue T := by
  unfold mmapAllocEntry at h
  rw [if_neg (not_not.mpr hf), if_pos hk] at h
  dsimp only at h
  split_ifs at h with hz
  rcases refill_search T s s.tree with hs | ⟨q, e, r, htree, hfirst, hconv, hbelow, heq⟩
  · exact absurd (by rw [hs, hk]) hz
  have hg : Good (s.entry e) := hwf.tidy.good _ (List.mem_map_of_mem (by rw [htree]; simp))
  have h₁ := hg.nonempty
  have h₂ := hg.sizeAligned
  have h₃ := hg.fits
  rw [Word.add_of_lt (by omega)] at hbelow
  rw [heq] at h hz
  refine ⟨q, e, r, ⟨hwf, htree, hconv, by decide, by decide, by omega, hbelow⟩, hfirst,
    fun hs => hz (by rw [hs, hk]), heq, ?_⟩
  cases h
  exact ⟨rfl, rfl⟩

/-- The allocation carves from the first conventional entry, or from a later
one and the first is too small. -/
theorem first_or_later {q r q' r' : List Ptr} {e mme : Ptr} (he : s.tree = q ++ e :: r)
    (hq : ∀ k ∈ q, (s.entry k).type ≠ .conventionalMemory) (hm : s.tree = q' ++ mme :: r')
    (hconv : (s.entry mme).type = .conventionalMemory) : e = mme ∨ e ∈ q' := by
  rw [he, List.append_eq_append_iff] at hm
  rcases hm with ⟨l, rfl, hl⟩ | ⟨l, rfl, hl⟩
  · cases l with
    | nil => exact .inl (List.cons.inj hl).1
    | cons k l => exact .inr (by simp [(List.cons.inj hl).1])
  · cases l with
    | nil => exact .inl (List.cons.inj hl).1.symm
    | cons k l =>
      obtain ⟨rfl, -⟩ := List.cons.inj hl
      exact absurd hconv (hq _ (by simp))

/-- The allocation goes on after the refill. -/
theorem RefillSafe.of_carved {s₁ : State} {q r : List Ptr} {e mme : Ptr} {page : ℕ}
    (hc : Carved T (takeNodePage s page T.slotsPerPage) s₁ .loaderData e page 4096)
    (h0 : page ≠ 0) (hk : s₁.allocatable ≠ 0) (h : Carving T s₁ type n q mme r)
    (hlt : n < (s₁.entry mme).size)
    (hmax : Maximal s.entries → Maximal s₁.entries ∧ ¬ PrevFits s₁ type mme (rbPrev s₁ mme)) :
    RefillSafe T s (sliceNew (s₁.issue T) mme s₁.allocNext type n).bumpKey type
      (s₁.entry mme).physicalStart n page := by
  obtain ⟨free, ho⟩ := h.wellFormed.owned
  obtain ⟨ha, ⟨hm, hrange⟩, hm'⟩ := h.fresh hlt (ho.issue hk) rfl rfl ⟨rfl, rfl, rfl⟩
  generalize (s₁.entry mme).physicalStart = lo at *
  have hpos := h.pos
  have hnow : ∀ x, typeAt s₁.entries x =
      if page ≤ x ∧ x < page + 4096 then some .loaderData else typeAt s.entries x := hc.now
  -- the page is loader data when the range is still conventional memory
  have hapart : ∀ x, page ≤ x → x < page + 4096 → ¬ (lo ≤ x ∧ x < lo + n) := by
    rintro x h₁ h₂ ⟨h₃, h₄⟩
    have := ha.was x h₃ h₄
    rw [hnow, if_pos ⟨h₁, h₂⟩] at this
    cases this
  refine ⟨h0, ?_, ⟨_, hm, hrange⟩, hc.was, ?_, ?_, ha.wellFormed, ha.table.trans hc.table,
    ha.stale.trans hc.stale, ?_⟩
  · have h₁ := hapart page le_rfl (by omega)
    have h₂ := hapart lo
    omega
  · intro x h₁ h₂
    rw [ha.now, if_neg (hapart x h₁ h₂), hnow, if_pos ⟨h₁, h₂⟩]
  · intro x h₁ h₂
    rw [ha.now, if_neg h₁, hnow, if_neg h₂]
  · intro htype hmax₀
    obtain ⟨h₁, h₂⟩ := hmax hmax₀
    exact hm' htype h₁ h₂

/-- No neighbour in front comes to fit by the refill. -/
theorem Carved.not_prevFits {s₁ : State} {q r q₁ r₁ : List Ptr} {e mme : Ptr} {page : ℕ}
    (hc : Carved T (takeNodePage s page T.slotsPerPage) s₁ .loaderData e page 4096)
    (h : Carving T s type n q mme r) (h₁ : Carving T s₁ type n q₁ mme r₁)
    (hstart : (s₁.entry mme).physicalStart = (s.entry mme).physicalStart)
    (hmax : Maximal s.entries) (hprev : ¬ PrevFits s type mme (rbPrev s mme)) :
    ¬ PrevFits s₁ type mme (rbPrev s₁ mme) := by
  intro hp
  obtain ⟨q', p, rfl, -, htype, hend⟩ := h₁.wellFormed.prevFits h₁.tree hp
  have hgp : Good (s₁.entry p) := h₁.tidy.1.good _ (by simp)
  have hne := hgp.nonempty
  have hg := h.tidy.2.1
  have hnow : typeAt s₁.entries ((s.entry mme).physicalStart - 1) = some type := by
    rw [← htype]
    exact typeAt_of_mem h₁.wellFormed.tidy (by simp [h₁.entries]) (by omega) (by omega)
  have hcn := hc.now ((s.entry mme).physicalStart - 1)
  rw [hnow] at hcn
  split_ifs at hcn with hin
  · -- the page would end where `mme` starts, and both were conventional memory
    have hal := hc.aligned
    have hst := hg.startAligned
    have hpos := hg.nonempty
    obtain ⟨m, hm, -, hlo, hhi⟩ := held_in_one h.wellFormed.tidy hmax
      (show (s.entry mme).physicalStart - 1 < (s.entry mme).physicalStart + 1 by omega)
      (t := .conventionalMemory) (fun x hx₁ hx₂ => by
        rcases Nat.lt_or_ge x (s.entry mme).physicalStart with hx | hx
        · exact hc.was x (by omega) (by omega)
        · exact h.was hx (by omega))
    have hm' : m ∈ s.entries := hm
    rw [h.entries] at hm'
    obtain ⟨-, -, -, hb₁, hb₂, -⟩ := h.tidy
    rcases List.mem_append.mp hm' with hm' | hm'
    · have := hb₁ m hm'
      unfold Before at this
      omega
    rcases List.mem_cons.mp hm' with rfl | hm'
    · omega
    · have := hb₂ m hm'
      unfold Before at this
      omega
  · exact hprev (h.prevFits_of_typeAt (by omega) hcn.symm)

/-- An allocation that took a page for nodes: `mme` is carved from and `e` lost
the page. -/
structure Refilling (T : Target) (s s' : State) (type : MemoryType) (r n : ℕ) (mme e : Ptr)
    (q q' l l' : List Ptr) : Prop where
  carving : Carving T s type n q mme q'
  tooSmall : ∀ k ∈ q, ¬ ((s.entry k).type = .conventionalMemory ∧ n ≤ (s.entry k).size)
  notWhole : (s.entry mme).size ≠ n
  notPrev : ¬ PrevFits s type mme (rbPrev s mme)
  refilling : Carving T s .loaderData 4096 l e l'
  first : ∀ k ∈ l, (s.entry k).type ≠ .conventionalMemory
  taken : refillFrom T s e ≠ s
  pages : s'.nodePages = nodePage s e :: s.nodePages
  result : r = (s.entry mme).physicalStart
  state : s' = (sliceNew ((refillFrom T s e).issue T) mme (refillFrom T s e).allocNext
    type n).bumpKey

theorem allocSearch_refilling {r : ℕ} {s' : State} (hwf : WellFormed T s)
    (hf : s.lastFreed = 0) (hk : s.allocatable = 0) (hpos : 0 < n) (hal : n % 4096 = 0)
    (hcall : allocSearch T type n s s.tree = .ok ⟨0, some r, s'⟩)
    (hkeep : s'.nodePages ≠ s.nodePages) :
    ∃ mme e q q' l l', Refilling T s s' type r n mme e q q' l l' := by
  rcases allocSearch_cases T type n s s.tree with
    hnone | ⟨q, mme, q', htree, hsmall, hbelow, hconv, hsize, heq⟩
  · rw [hnone] at hcall
    cases hcall
  have hg : Good (s.entry mme) := hwf.tidy.good _ (List.mem_map_of_mem (by rw [htree]; simp))
  have hfits := hg.fits
  rw [Word.add_of_lt (by omega)] at hbelow
  have hc : Carving T s type n q mme q' :=
    ⟨hwf, htree, hconv, hpos, hal, hsize, hbelow⟩
  rw [heq] at hcall
  unfold allocFrom at hcall
  dsimp only at hcall
  rw [toPtr_eq T (by omega)] at hcall
  split_ifs at hcall with h₁ h₂ h₃ h₄
  · cases hcall
    exact absurd (congrArg (fun p => p.2.2) (pool_mergeAdjacent _ _)) hkeep
  · cases hcall
    exact absurd rfl hkeep
  · cases hcall
  · cases hcall
    exact absurd rfl hkeep
  · cases halloc : mmapAllocEntry T s with
    | error m =>
      rw [halloc] at hcall
      cases hcall
    | ok res =>
      obtain ⟨new, s₂⟩ := res
      obtain ⟨l, e, l', hp, hfirst, htaken, -, rfl, rfl⟩ := mmapAllocEntry_dry hwf hf hk halloc
      rw [halloc] at hcall
      cases hcall
      have hpages := congrArg (fun p => p.2.2) (pool_sliceNew ((refillFrom T s e).issue T) mme
        (refillFrom T s e).allocNext type n)
      exact ⟨mme, e, q, q', l, l', hc, hsmall, h₁, h₂, hp, hfirst, htaken,
        hpages.trans (hp.refillFrom_pages.resolve_left htaken), rfl, rfl⟩

theorem sliceNew_mem {m m' : Ptr} (new : Ptr) (hm : m ∈ s.tree) :
    m ∈ (sliceNew s m' new type n).tree := by
  unfold sliceNew
  exact rbInsert_mem hm

/-- What is left of an entry that was carved up to its end. -/
theorem sliceNew_size {m : Ptr} (new : Ptr) (hsize : (s.entry m).size = n) :
    ((sliceNew s m new type n).entry m).size = Word.sub 64 n n := by
  have hentry : ∀ t : State, (rbInsert t new).2.entry = t.entry := by
    intro t
    unfold rbInsert
    dsimp only
    split <;> rfl
  unfold sliceNew
  dsimp only
  rw [hentry]
  dsimp only [State.setEntry]
  rw [Function.update_self]
  dsimp only [dropFront]
  congr 1
  by_cases hm : m = new
  · rw [hm, Function.update_self]
  · rw [Function.update_of_ne hm, hsize]

namespace Refilling

variable {s' : State} {r : ℕ} {mme e : Ptr} {q q' l l' : List Ptr}

theorem find (h : Refilling T s s' type r n mme e q q' l l') :
    s.tree.find? (fun k => decide ((s.entry k).type = .conventionalMemory)) = some e :=
  h.refilling.find h.first

theorem same (h : Refilling T s s' type r n mme e q q' l l')
    (hsize : n ≤ (s.entry e).size) : e = mme := by
  rcases first_or_later h.refilling.tree h.first h.carving.tree h.carving.conventional with he | he
  · exact he
  · exact absurd ⟨h.refilling.conventional, hsize⟩ (h.tooSmall e he)

/-- The page is taken and the allocation succeeds beside it. -/
theorem safe (h : Refilling T s s' type r n mme e q q' l l') (hf : s.lastFreed = 0)
    (hheld : NodesHeld T s) (hclear : RefillClear s n) :
    RefillSafe T s s' type r n (nodePage s e) := by
  obtain ⟨e', hfind, hnull, hroom⟩ := hclear
  obtain rfl : e = e' := Option.some.inj (h.find.symm.trans hfind)
  obtain ⟨free, ho⟩ := h.carving.wellFormed.owned
  have hg := h.carving.tidy.2.1
  have hge := h.refilling.tidy.2.1
  have hsize := h.carving.size
  have hne := h.notWhole
  have h0 := h.refilling.nodePage_ne_zero hnull
  obtain ⟨hc, hk, hmax⟩ := (h.refilling.refilled hf hheld h0).resolve_left h.taken
  rw [h.state, h.result]
  rcases first_or_later h.refilling.tree h.first h.carving.tree h.carving.conventional with
    rfl | he
  · obtain ⟨hlast, hbig⟩ := hroom hsize
    obtain ⟨htree, hentry⟩ := h.refilling.refillFrom_last hlast h.taken
    have hsz : ((refillFrom T s e).entry e).size = (s.entry e).size - 4096 := by
      rw [hentry]
      exact Word.sub_of_le (by have := hg.fits; omega) (by omega)
    have hst : ((refillFrom T s e).entry e).physicalStart = (s.entry e).physicalStart := by
      rw [hentry]
    have h₁ : Carving T (refillFrom T s e) type n q e q' :=
      ⟨hc.wellFormed, htree.trans h.carving.tree, by rw [hentry]; exact h.carving.conventional,
        h.carving.pos, h.carving.aligned, by omega, hst ▸ h.carving.below⟩
    have hsafe := RefillSafe.of_carved hc h0 hk h₁ (by omega)
      fun hm => ⟨hmax hm, hc.not_prevFits h.carving h₁ hst hm h.notPrev⟩
    rwa [hst] at hsafe
  · have hme : mme ≠ e := by
      rintro rfl
      exact (ho.not_mem h.carving.tree).1 he
    obtain ⟨hmem, hentry⟩ := hc.kept mme (by change mme ∈ s.tree; simp [h.carving.tree]) hme
      (by change (s.entry mme).type ≠ _; rw [h.carving.conventional]; decide)
    have hentry' : (refillFrom T s e).entry mme = s.entry mme := hentry
    obtain ⟨q₁, r₁, htree⟩ := List.append_of_mem hmem
    have h₁ : Carving T (refillFrom T s e) type n q₁ mme r₁ :=
      ⟨hc.wellFormed, htree, hentry' ▸ h.carving.conventional, h.carving.pos,
        h.carving.aligned, hentry' ▸ h.carving.size, hentry' ▸ h.carving.below⟩
    have hsafe := RefillSafe.of_carved hc h0 hk h₁ (by rw [hentry']; omega)
      fun hm => ⟨hmax hm, hc.not_prevFits h.carving h₁ (by rw [hentry']) hm h.notPrev⟩
    rwa [hentry'] at hsafe

/-- Anything else than a clear refill does damage. -/
theorem clear (h : Refilling T s s' type r n mme e q q' l l')
    (hsafe : RefillSafe T s s' type r n (nodePage s e)) : RefillClear s n := by
  have hge := h.refilling.tidy.2.1
  have hfirst : ¬ TakesLast s e → nodePage s e = (s.entry e).physicalStart := fun hl => if_neg hl
  refine ⟨e, h.find, ?_, ?_⟩
  · by_contra hcon
    obtain ⟨h₁, h₂⟩ := not_or.mp hcon
    exact hsafe.notNull ((hfirst h₂).trans (not_not.mp h₁))
  intro hsize
  obtain rfl := h.same hsize
  have hpos := h.carving.pos
  have hlast : TakesLast s e := by
    by_contra hl
    have hpage := hfirst hl
    have hr := h.result
    have := hsafe.apart
    omega
  refine ⟨hlast, ?_⟩
  by_contra hsmall
  have hne := h.notWhole
  have ha := h.carving.aligned
  have hsa := hge.sizeAligned
  have hfits := hge.fits
  -- nothing is left of the entry
  obtain ⟨htree, hentry⟩ := h.refilling.refillFrom_last hlast h.taken
  have hn : (((refillFrom T s e).issue T).entry e).size = n := by
    change ((refillFrom T s e).entry e).size = n
    rw [hentry]
    refine (Word.sub_of_le (by omega) (by omega)).trans ?_
    omega
  have hmem : e ∈ s'.tree := by
    rw [h.state]
    refine sliceNew_mem (s := (refillFrom T s e).issue T) _ ?_
    change e ∈ (refillFrom T s e).tree
    rw [htree, h.carving.tree]
    simp
  have hzero : (s'.entry e).size = 0 := by
    rw [h.state]
    refine (sliceNew_size (s := (refillFrom T s e).issue T) _ hn).trans ?_
    rw [Word.sub_of_le (by omega) le_rfl, Nat.sub_self]
  exact absurd hzero (hsafe.wellFormed.tidy.good _ (List.mem_map_of_mem hmem)).nonempty.ne'

end Refilling

end Allocate

/-- Whatever becomes of the pool, the returned range was conventional memory. -/
theorem gdAllocPages_was {T : Target} {s s' : State} {type : MemoryType} {count r : ℕ}
    (hwf : WellFormed T s) (hcount : 1 ≤ count) (hrep : count * 4096 < 2^T.ptrBits)
    (hcall : gdAllocPages T type count s = .ok ⟨0, some r, s'⟩) {x : ℕ} (h₁ : r ≤ x)
    (h₂ : x < r + 4096 * count) : typeAt s.entries x = some .conventionalMemory := by
  rw [gdAllocPages_eq hcount hrep] at hcall
  rcases allocSearch_spec hwf (by omega : 0 < 4096 * count) (by omega) with
    hnone | ⟨a, t, hr, ha, -⟩ | ⟨hpool, herr | ⟨a, t, hr, hrefills⟩⟩
  · rw [hnone] at hcall
    cases hcall
  · rw [hr] at hcall
    cases hcall
    exact ha.was x h₁ h₂
  · rw [herr] at hcall
    cases hcall
  · rw [hr] at hcall
    cases hcall
    obtain ⟨hf, hk⟩ := not_poolReady hpool
    obtain ⟨mme, e, q, q', l, l', h⟩ :=
      allocSearch_refilling hwf hf hk (by omega) (by omega) hr fun hp => by
        have := congrArg List.length hp
        unfold State.refills at hrefills
        omega
    have hsize := h.carving.size
    rw [h.result] at h₁ h₂
    exact h.carving.was h₁ (by omega)

/-- All static slots are linked. The first entry is two pages of conventional
memory and the last one sixteen; what lies between belongs to devices. -/
def fullPool : State :=
  { State.initial .lp64 with
    tree := (List.range 32).map fun i => 0x20000 + 72 * i
    entry := fun n =>
      let i := (n - 0x20000) / 72
      { type := if i = 0 ∨ i = 31 then .conventionalMemory else .mmio
        physicalStart := 0x1000000 * (i + 1)
        size := if i = 0 then 0x2000 else 0x10000 }
    allocNext := 0x20000 + 72 * 32
    allocatable := 0 }

theorem fullPool_wellFormed : WellFormed .lp64 fullPool := by
  refine ⟨overlapPrecedence_complete, ⟨[], rfl, by decide +kernel, by decide, by decide⟩, ?_, ?_⟩
  · have hgood : ∀ e ∈ fullPool.entries, e.physicalStart % 4096 = 0 ∧ e.size % 4096 = 0 ∧
        0 < e.size ∧ e.physicalStart + e.size < 2^64 := by decide +kernel
    intro e he
    obtain ⟨h₁, h₂, h₃, h₄⟩ := hgood e he
    exact ⟨h₁, h₂, h₃, h₄⟩
  · change fullPool.entries.Pairwise fun a b => a.physicalStart + a.size ≤ b.physicalStart
    decide +kernel

theorem fullPool_nodesHeld : NodesHeld .lp64 fullPool := by
  have hlow : ∀ m ∈ fullPool.tree, m < 0x30000 := by decide +kernel
  have hhigh : ∀ e ∈ fullPool.entries, 0x1000000 ≤ e.physicalStart := by decide +kernel
  intro m hm i hi
  have hnone : typeAt fullPool.entries (m + i) = none := by
    refine typeAt_none ?_
    rintro e he ⟨h₁, -⟩
    have h₂ : m + i < 0x30000 + 72 := Nat.add_lt_add (hlow m hm) hi
    have h₃ : 0x30000 + 72 ≤ e.physicalStart := le_trans (by decide) (hhigh e he)
    exact absurd (h₁.trans_lt h₂) (not_lt.mpr h₃)
  rw [hnone]
  exact fun h => nomatch h

end Gandr.Mmap

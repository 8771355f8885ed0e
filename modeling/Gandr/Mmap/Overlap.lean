import Gandr.Mmap.Ensures
import Gandr.Mmap.Settle

/-! `fix_overlap` and `mmap_add_entry` on a well-formed map: how each branch
rearranges the entries, and what the recursion achieves as a whole. -/

namespace Gandr.Mmap

section Body

variable {T : Target} {s : State} {free pre rest : List Ptr} {first second : Ptr}
  {fix : Ptr → State → Outcome} {add : MemoryMapEntry → State → Outcome}

theorem fixOverlapBody_last (ho : Owned T s [] free) (ht : s.tree = pre ++ [first]) :
    fixOverlapBody fix add first s = .returned s := by
  have hmem : first ∈ s.tree := by simp [ht]
  simp only [fixOverlapBody, use_of_mem hmem, rbNext_last ho ht, ho.ne_null hmem, if_true, if_false]

theorem fixOverlapBody_ended (ho : Owned T s [] free)
    (ht : s.tree = pre ++ first :: second :: rest)
    (hle : (s.entry first).physicalEnd ≤ (s.entry second).physicalStart) :
    fixOverlapBody fix add first s = .returned s := by
  have hmem : first ∈ s.tree := by simp [ht]
  have hmem' : second ∈ s.tree := by simp [ht]
  simp only [fixOverlapBody, use_of_mem hmem, rbNext_cons ho ht, ho.ne_null hmem,
    ho.ne_null hmem', hle, if_true, if_false]

theorem fixOverlapBody_apart (ho : Owned T s [] free)
    (ht : s.tree = pre ++ first :: second :: rest) (hf : Good (s.entry first))
    (hb : Before (s.entry first) (s.entry second)) :
    fixOverlapBody fix add first s = .returned s := by
  refine fixOverlapBody_ended ho ht ?_
  rw [hf.physicalEnd]
  exact hb

/-- The branches of `fix_overlap` where the next entry overlaps. -/
theorem fixOverlapBody_overlap (ho : Owned T s [] free) (hc : Complete s.overlapPrecedence)
    (ht : s.tree = pre ++ first :: second :: rest) (hf : Good (s.entry first))
    (hn : Good (s.entry second))
    (hs : (s.entry first).physicalStart < (s.entry second).physicalStart)
    (hov : ¬ Before (s.entry first) (s.entry second)) :
    fixOverlapBody fix add first s =
      let f := s.entry first
      let n := s.entry second
      let wins := rank s.overlapPrecedence f.type ≤ rank s.overlapPrecedence n.type
      if f.physicalStart + f.size < n.physicalStart + n.size then
        if wins then .returned (s.setEntry second (cutSecond f n))
        else .returned (s.setEntry first (cutFirst f n))
      else if n.physicalStart + n.size < f.physicalStart + f.size then
        if wins then fix first (mmapFreeEntry { s with tree := pre ++ first :: rest } second)
        else add (tailEntry f n)
          ((s.setEntry second { n with attributes := f.attributes ||| n.attributes }).setEntry
            first (cutFirst f n))
      else .returned ((s.setEntry second { n with
          type := higherPrecedence s.overlapPrecedence f.type n.type }).setEntry
        first (cutFirst f n)) := by
  have hmem : first ∈ s.tree := by simp [ht]
  have hmem' : second ∈ s.tree := by simp [ht]
  have hfits := hf.fits
  have hnits := hn.fits
  have hne := hn.nonempty
  unfold Before at hov
  have hle : ¬ (s.entry first).physicalStart + (s.entry first).size ≤
      (s.entry second).physicalStart := hov
  have hfirst : Word.sub 64 (s.entry second).physicalStart (s.entry first).physicalStart =
      (s.entry second).physicalStart - (s.entry first).physicalStart :=
    Word.sub_of_le (by omega) hs.le
  have hremove : rbRemove s second = { s with tree := pre ++ first :: rest } := by
    simpa using rbRemove_linked ho
      (by simpa using ht : s.tree = (pre ++ [first]) ++ second :: rest)
  simp only [fixOverlapBody, use_of_mem hmem, rbNext_cons ho ht, ho.ne_null hmem,
    ho.ne_null hmem', hf.physicalEnd, hn.physicalEnd, hle, if_false,
    higherPrecedence_eq_left hc, hfirst, splitOverlap, hremove]
  by_cases hlt : (s.entry first).physicalStart + (s.entry first).size <
      (s.entry second).physicalStart + (s.entry second).size
  · have hsub : Word.sub 64 ((s.entry second).physicalStart + (s.entry second).size)
        ((s.entry first).physicalStart + (s.entry first).size) =
        (s.entry second).physicalStart + (s.entry second).size -
          ((s.entry first).physicalStart + (s.entry first).size) :=
      Word.sub_of_le (by omega) hlt.le
    have hstart : Word.sub 64 ((s.entry second).physicalStart + (s.entry second).size)
        ((s.entry second).physicalStart + (s.entry second).size -
          ((s.entry first).physicalStart + (s.entry first).size)) =
        (s.entry first).physicalStart + (s.entry first).size := by
      rw [Word.sub_of_le (by omega) (by omega)]
      omega
    by_cases hw : rank s.overlapPrecedence (s.entry first).type ≤
        rank s.overlapPrecedence (s.entry second).type
    · simp only [hlt, hw, if_true, hsub, hstart, cutSecond]
    · have htype : higherPrecedence s.overlapPrecedence (s.entry first).type
          (s.entry second).type = (s.entry second).type := by
        rw [higherPrecedence_eq _ _ (hc _), if_neg hw]
      simp only [hlt, hw, if_true, if_false, htype, cutFirst]
  · by_cases hgt : (s.entry second).physicalStart + (s.entry second).size <
        (s.entry first).physicalStart + (s.entry first).size
    · by_cases hw : rank s.overlapPrecedence (s.entry first).type ≤
          rank s.overlapPrecedence (s.entry second).type
      · simp only [hlt, hgt, hw, if_true, if_false]
      · have htype : higherPrecedence s.overlapPrecedence (s.entry first).type
            (s.entry second).type = (s.entry second).type := by
          rw [higherPrecedence_eq _ _ (hc _), if_neg hw]
        have hsub : Word.sub 64 ((s.entry first).physicalStart + (s.entry first).size)
            ((s.entry second).physicalStart + (s.entry second).size) =
            (s.entry first).physicalStart + (s.entry first).size -
              ((s.entry second).physicalStart + (s.entry second).size) :=
          Word.sub_of_le (by omega) hgt.le
        have hsize : Word.sub 64 ((s.entry second).physicalStart + (s.entry second).size)
            (s.entry second).physicalStart = (s.entry second).size := by
          rw [Word.sub_of_le (by omega) (by omega)]
          omega
        simp only [hlt, hgt, hw, if_true, if_false, htype, hsub, hsize, cutFirst, tailEntry]
    · simp only [hlt, hgt, if_false, cutFirst]

end Body

/-- Where `fix_overlap` starts from: `first` may overlap the entries after it,
which are in order among themselves. -/
structure FixPre (T : Target) (s : State) (pre : List Ptr) (first : Ptr) (post : List Ptr) :
    Prop where
  complete : Complete s.overlapPrecedence
  owned : ∃ free, Owned T s [] free
  tree : s.tree = pre ++ first :: post
  good : Good (s.entry first)
  tidy : Tidy (post.map s.entry)
  below : ∀ m ∈ pre, ∀ k ∈ post, (s.entry m).physicalStart < (s.entry k).physicalStart
  above : ∀ m ∈ post, (s.entry first).physicalStart < (s.entry m).physicalStart

/-- What `fix_overlap` leaves behind. -/
structure Fixed (T : Target) (s s' : State) (pre : List Ptr) (first : Ptr) (post post' : List Ptr) :
    Prop extends Leaves T s s' pre ((first :: post).map s.entry) (first :: post') where
  start : (s'.entry first).physicalStart = (s.entry first).physicalStart
  type : (s'.entry first).type = (s.entry first).type
  /-- `first` is as it was, or ends where one of the later entries started -/
  whole : s'.entry first = s.entry first ∨ ∃ m ∈ post,
    (s'.entry first).physicalStart + (s'.entry first).size = (s.entry m).physicalStart
  lower : ∀ b, (∀ m ∈ post, b ≤ (s.entry m).physicalStart) →
    ∀ m ∈ post', b ≤ (s'.entry m).physicalStart

/-- Where `mmap_add_entry` starts from. Behind `pre` the map is well-formed,
and unless `pre` is empty the new entry has a predecessor behind it. -/
structure AddPre (T : Target) (s : State) (pre post : List Ptr) (e : MemoryMapEntry) : Prop where
  complete : Complete s.overlapPrecedence
  owned : ∃ free, Owned T s [] free
  tree : s.tree = pre ++ post
  good : Good e
  tidy : Tidy (post.map s.entry)
  below : ∀ m ∈ pre, (s.entry m).physicalStart < e.physicalStart
  headed : pre = [] ∨ ∃ h t, post = h :: t ∧ (s.entry h).physicalStart < e.physicalStart

/-- What `mmap_add_entry` leaves behind. -/
structure Added (T : Target) (s s' : State) (pre post : List Ptr) (e : MemoryMapEntry)
    (post' : List Ptr) : Prop extends Leaves T s s' pre (e :: post.map s.entry) post' where
  lower : ∀ b, b ≤ e.physicalStart → (∀ m ∈ post, b ≤ (s.entry m).physicalStart) →
    ∀ m ∈ post', b ≤ (s'.entry m).physicalStart
  head : ∀ h t, post = h :: t → (s.entry h).physicalStart < e.physicalStart →
    ∃ t', post' = h :: t' ∧ (s'.entry h).physicalStart = (s.entry h).physicalStart

/-- The panics of a call whose effect on the list of entries is `x`. -/
def PanicsAs {α : Type} (x : Option α) (m : String) : Prop :=
  m = "Out of memory" ∨ m = "Bad memory map tree?" ∧ x = none

/-- `Fixed`, with the entries that are left. -/
structure Settled (T : Target) (s s' : State) (pre : List Ptr) (first : Ptr)
    (post post' : List Ptr) : Prop extends Fixed T s s' pre first post post' where
  list : settle s.overlapPrecedence (s.entry first) (post.map s.entry) =
    some (s'.entry first, post'.map s'.entry)

/-- `Added`, with the entries that are left. -/
structure AddedTo (T : Target) (s s' : State) (pre post : List Ptr) (e : MemoryMapEntry)
    (post' : List Ptr) : Prop extends Added T s s' pre post e post' where
  list : addTo s.overlapPrecedence e (post.map s.entry) = some (post'.map s'.entry)

theorem PanicsAs.mono {α β : Type} {x : Option α} {y : Option β} {m : String}
    (h : PanicsAs x m) (hxy : x = none → y = none) : PanicsAs y m := by
  rcases h with h | ⟨h, hx⟩
  · exact .inl h
  · exact .inr ⟨h, hxy hx⟩

section FixSteps

variable {T : Target} {s : State} {pre rest : List Ptr} {first second : Ptr}

theorem FixPre.refl_settled {post : List Ptr} (h : FixPre T s pre first post)
    (hb : ∀ m ∈ post, Before (s.entry first) (s.entry m)) :
    Settled T s s pre first post post := by
  obtain ⟨free, ho⟩ := h.owned
  refine ⟨⟨.rfl' ho h.tree ?_, rfl, rfl, .inl rfl, fun b hb m hm => hb m hm⟩, ?_⟩
  · exact tidy_cons.mpr ⟨h.good, by simpa using hb, h.tidy⟩
  · exact settle_before (by simpa using hb)

theorem FixPre.not_mem (h : FixPre T s pre first (second :: rest)) :
    first ∉ pre ∧ first ≠ second ∧ first ∉ rest ∧ second ∉ pre ∧ second ∉ rest := by
  obtain ⟨free, ho⟩ := h.owned
  obtain ⟨h₁, h₂⟩ := ho.not_mem h.tree
  obtain ⟨h₃, h₄⟩ := ho.not_mem
    (by simpa using h.tree : s.tree = (pre ++ [first]) ++ second :: rest)
  simp only [List.mem_cons, List.mem_append, not_or] at h₂ h₃
  exact ⟨h₁, h₂.1, h₂.2, h₃.1, h₄⟩

/-- New contents for `first` and `second` that read as the old ones did. -/
theorem FixPre.rewrite (h : FixPre T s pre first (second :: rest)) (f n : MemoryMapEntry)
    {s' : State} (he : s'.entry = Function.update (Function.update s.entry second n) first f)
    (hq : Quiet s s') (htree : s'.tree = s.tree) (hown : ∀ free, Owned T s [] free → Owned T s' [] free)
    (ht : Tidy (f :: n :: rest.map s.entry))
    (hbest : ∀ x, (view s.overlapPrecedence).bestAt (f :: n :: rest.map s.entry) x =
      (view s.overlapPrecedence).bestAt ((first :: second :: rest).map s.entry) x)
    (hstart : f.physicalStart = (s.entry first).physicalStart)
    (htype : f.type = (s.entry first).type)
    (hwhole : f = s.entry first ∨ f.physicalStart + f.size = (s.entry second).physicalStart)
    (hlow : (s.entry second).physicalStart ≤ n.physicalStart) :
    Fixed T s s' pre first (second :: rest) (second :: rest) ∧
      s'.entry first = f ∧ (second :: rest).map s'.entry = n :: rest.map s.entry := by
  obtain ⟨h₁, h₂, h₃, h₄, h₅⟩ := h.not_mem
  have hfirst : s'.entry first = f := by rw [he, Function.update_self]
  have hsecond : s'.entry second = n := by
    rw [he, Function.update_of_ne (Ne.symm h₂), Function.update_self]
  have hrest : ∀ l : List Ptr, first ∉ l → second ∉ l → ∀ m ∈ l, s'.entry m = s.entry m := by
    intro l hl₁ hl₂ m hm
    rw [he, update_of_mem hl₁ hm, update_of_mem hl₂ hm]
  have hmap : (first :: second :: rest).map s'.entry = f :: n :: rest.map s.entry := by
    simp only [List.map_cons, hfirst, hsecond]
    rw [List.map_congr_left (hrest rest h₃ h₅)]
  obtain ⟨free, ho⟩ := h.owned
  refine ⟨⟨⟨hq, htree.trans h.tree, ⟨free, hown free ho⟩, hrest pre h₁ h₄, hmap ▸ ht, ?_⟩,
    ?_, ?_, ?_, ?_⟩, hfirst, (List.cons.inj hmap).2⟩
  · intro x
    rw [hmap, hbest x]
  · rw [hfirst, hstart]
  · rw [hfirst, htype]
  · rw [hfirst]
    rcases hwhole with hw | hw
    · exact .inl hw
    · exact .inr ⟨second, List.mem_cons_self, hw⟩
  · intro b hb m hm
    rcases List.mem_cons.mp hm with rfl | hm
    · rw [hsecond]
      exact (hb m List.mem_cons_self).trans hlow
    · rw [hrest rest h₃ h₅ m hm]
      exact hb m (List.mem_cons_of_mem _ hm)

/-- The state after an entry inside `first` is unlinked and freed. -/
def dropped (s : State) (pre : List Ptr) (first second : Ptr) (rest : List Ptr) : State :=
  mmapFreeEntry { s with tree := pre ++ first :: rest } second

/-- The state in which the tail of `first` is added again. -/
def splitted (s : State) (first second : Ptr) : State :=
  (s.setEntry second { s.entry second with
    attributes := (s.entry first).attributes ||| (s.entry second).attributes }).setEntry
      first (cutFirst (s.entry first) (s.entry second))

/-- `second` ends before `first` does, and `first` is at least as strong. -/
def Swallows (s : State) (first second : Ptr) : Prop :=
  Redundant s.overlapPrecedence (s.entry second) (s.entry first)

theorem FixPre.next (h : FixPre T s pre first (second :: rest)) :
    Good (s.entry second) ∧ (s.entry first).physicalStart < (s.entry second).physicalStart ∧
      (∀ b ∈ rest.map s.entry, Before (s.entry second) b) ∧ Tidy (rest.map s.entry) := by
  have ht := h.tidy
  rw [List.map_cons, tidy_cons] at ht
  exact ⟨ht.1, h.above second List.mem_cons_self, ht.2⟩

theorem FixPre.dropped (h : FixPre T s pre first (second :: rest)) :
    FixPre T (Mmap.dropped s pre first second rest) pre first rest := by
  obtain ⟨free, ho⟩ := h.owned
  have hown := (ho.unlink
    (by simpa using h.tree : s.tree = (pre ++ [first]) ++ second :: rest)).freed
  exact ⟨h.complete, ⟨second :: free, by simpa [Mmap.dropped] using hown⟩, rfl, h.good,
    h.next.2.2.2, fun m hm k hk => h.below m hm k (List.mem_cons_of_mem _ hk),
    fun m hm => h.above m (List.mem_cons_of_mem _ hm)⟩

theorem FixPre.fixed_of_dropped
    (hsw : Swallows s first second) {s' : State} {post' : List Ptr}
    (hf : Fixed T (Mmap.dropped s pre first second rest) s' pre first rest post') :
    Fixed T s s' pre first (second :: rest) post' := by
  refine ⟨⟨⟨hf.table, hf.pages, hf.stale⟩, hf.tree, hf.owned, hf.frame, hf.tidy, ?_⟩,
    hf.start, hf.type, ?_, ?_⟩
  · intro x
    have hx := hf.best x
    change (view s.overlapPrecedence).bestAt _ x =
      (view s.overlapPrecedence).bestAt ((first :: rest).map s.entry) x at hx
    rw [hx]
    exact best_drop hsw.1 hsw.2.1 hsw.2.2 x
  · rcases hf.whole with hw | ⟨m, hm, hw⟩
    · exact .inl hw
    · exact .inr ⟨m, List.mem_cons_of_mem _ hm, hw⟩
  · intro b hb
    exact hf.lower b (fun m hm => hb m (List.mem_cons_of_mem _ hm))

theorem FixPre.splitted_entry (h : FixPre T s pre first (second :: rest)) :
    (splitted s first second).entry first = cutFirst (s.entry first) (s.entry second) ∧
    (splitted s first second).entry second = { s.entry second with
      attributes := (s.entry first).attributes ||| (s.entry second).attributes } ∧
    (∀ m ∈ pre, (splitted s first second).entry m = s.entry m) ∧
    ∀ m ∈ rest, (splitted s first second).entry m = s.entry m := by
  obtain ⟨h₁, h₂, h₃, h₄, h₅⟩ := h.not_mem
  refine ⟨Function.update_self .., ?_, ?_, ?_⟩
  · change Function.update (Function.update s.entry second _) first _ second = _
    rw [Function.update_of_ne (Ne.symm h₂), Function.update_self]
  · intro m hm
    change Function.update (Function.update s.entry second _) first _ m = _
    rw [update_of_mem h₁ hm, update_of_mem h₄ hm]
  · intro m hm
    change Function.update (Function.update s.entry second _) first _ m = _
    rw [update_of_mem h₃ hm, update_of_mem h₅ hm]

theorem FixPre.addPre (h : FixPre T s pre first (second :: rest))
    (hlt : (s.entry second).physicalStart + (s.entry second).size <
      (s.entry first).physicalStart + (s.entry first).size) :
    AddPre T (splitted s first second) (pre ++ [first]) (second :: rest)
      (tailEntry (s.entry first) (s.entry second)) := by
  obtain ⟨free, ho⟩ := h.owned
  obtain ⟨hn, hs, hb, ht⟩ := h.next
  obtain ⟨e₁, e₂, e₃, e₄⟩ := h.splitted_entry
  have hne := hn.nonempty
  have htree : (splitted s first second).tree = pre ++ [first] ++ second :: rest := by
    change s.tree = _
    simpa using h.tree
  refine ⟨h.complete, ⟨free, (ho.setEntry _ _).setEntry _ _⟩, htree,
    good_tailEntry h.good hn hlt, ?_, ?_, .inr ⟨second, rest, rfl, ?_⟩⟩
  · rw [List.map_cons, List.map_congr_left e₄, e₂, tidy_cons]
    exact ⟨⟨hn.startAligned, hn.sizeAligned, hn.nonempty, hn.fits⟩, hb, ht⟩
  · intro m hm
    rcases List.mem_append.mp hm with hm | hm
    · have hm' := h.below m hm second List.mem_cons_self
      rw [e₃ m hm]
      simp only [tailEntry]
      omega
    · obtain rfl := List.mem_singleton.mp hm
      rw [e₁]
      simp only [tailEntry, cutFirst]
      omega
  · rw [e₂]
    simp only [tailEntry]
    omega

theorem FixPre.fixed_of_added (h : FixPre T s pre first (second :: rest))
    (hlt : (s.entry second).physicalStart + (s.entry second).size <
      (s.entry first).physicalStart + (s.entry first).size)
    (hrank : rank s.overlapPrecedence (s.entry second).type ≤
      rank s.overlapPrecedence (s.entry first).type) {s' : State} {post' : List Ptr}
    (ha : Added T (splitted s first second) s' (pre ++ [first]) (second :: rest)
      (tailEntry (s.entry first) (s.entry second)) post') :
    Fixed T s s' pre first (second :: rest) post' ∧ ∃ t, post' = second :: t := by
  obtain ⟨hn, hs, hb, ht⟩ := h.next
  obtain ⟨e₁, e₂, e₃, e₄⟩ := h.splitted_entry
  have hne := hn.nonempty
  have hfirst : s'.entry first = cutFirst (s.entry first) (s.entry second) := by
    rw [ha.frame first (by simp), e₁]
  have hlower : ∀ b, (∀ m ∈ second :: rest, b ≤ (s.entry m).physicalStart) →
      ∀ m ∈ post', b ≤ (s'.entry m).physicalStart := by
    intro b hb
    obtain ⟨hb₁, hb₂⟩ := List.forall_mem_cons.mp hb
    refine ha.lower b ?_ (List.forall_mem_cons.mpr ⟨?_, fun m hm => ?_⟩)
    · simp only [tailEntry]
      omega
    · rw [e₂]
      exact hb₁
    · rw [e₄ m hm]
      exact hb₂ m hm
  have hstarts : ∀ m ∈ post', (s.entry second).physicalStart ≤ (s'.entry m).physicalStart := by
    refine hlower _ (List.forall_mem_cons.mpr ⟨le_rfl, fun m hm => ?_⟩)
    have := hb _ (List.mem_map_of_mem hm)
    unfold Before at this
    omega
  refine ⟨⟨⟨⟨ha.table, ha.pages, ha.stale⟩, by simpa using ha.tree, ha.owned, ?_, ?_, ?_⟩,
    ?_, ?_, ?_, hlower⟩, ?_⟩
  · intro m hm
    rw [ha.frame m (List.mem_append_left _ hm), e₃ m hm]
  · rw [List.map_cons, tidy_cons, hfirst]
    refine ⟨good_cutFirst h.good hn hs, ?_, ha.tidy⟩
    intro b hb
    obtain ⟨m, hm, rfl⟩ := List.mem_map.mp hb
    have := hstarts m hm
    simp only [Before, cutFirst]
    omega
  · intro x
    have hx := ha.best x
    change (view s.overlapPrecedence).bestAt _ x = (view s.overlapPrecedence).bestAt _ x at hx
    rw [List.map_cons, Cover.View.bestAt_cons, hx, hfirst]
    rw [List.map_cons, List.map_congr_left e₄, e₂]
    exact best_split hs hlt hrank x
  · rw [hfirst]
    rfl
  · rw [hfirst]
    rfl
  · right
    refine ⟨second, List.mem_cons_self, ?_⟩
    rw [hfirst]
    simp only [cutFirst]
    omega
  · obtain ⟨t, ht, -⟩ := ha.head second rest rfl (by rw [e₂]; simp only [tailEntry]; omega)
    exact ⟨t, ht⟩

/-- Dropping an entry inside `first` goes on with the entries behind it. -/
theorem FixPre.settle_dropped (hsw : Swallows s first second) :
    settle s.overlapPrecedence (s.entry first) ((second :: rest).map s.entry) =
      settle s.overlapPrecedence (s.entry first) (rest.map s.entry) := by
  obtain ⟨h₁, h₂, h₃⟩ := hsw
  rw [List.map_cons, settle_overlap (by omega), if_neg (by omega), if_pos h₂, if_pos h₃]

/-- The tail of `first` is added to `second` and the entries behind it. -/
theorem FixPre.settle_splitted (h : FixPre T s pre first (second :: rest))
    (hlt : (s.entry second).physicalStart + (s.entry second).size <
      (s.entry first).physicalStart + (s.entry first).size)
    (hrank : rank s.overlapPrecedence (s.entry second).type <
      rank s.overlapPrecedence (s.entry first).type) :
    settle s.overlapPrecedence (s.entry first) ((second :: rest).map s.entry) =
      (addTo s.overlapPrecedence (tailEntry (s.entry first) (s.entry second))
        ((second :: rest).map (splitted s first second).entry)).map
          fun l => (cutFirst (s.entry first) (s.entry second), l) := by
  obtain ⟨hn, hs, hb, ht⟩ := h.next
  obtain ⟨-, e₂, -, e₄⟩ := h.splitted_entry
  have hne := hn.nonempty
  have hstart : ∀ k ∈ rest.map s.entry,
      (tailEntry (s.entry first) (s.entry second)).physicalStart ≤ k.physicalStart := hb
  rw [List.map_cons, settle_overlap (by omega), if_neg (by omega), if_pos hlt,
    if_neg (not_le.mpr hrank), List.map_cons, e₂, List.map_congr_left e₄]
  refine congrArg _ (readd_eq rfl hne hstart ?_)
  intro k hk
  cases hr : rest.map s.entry with
  | nil => simp [hr] at hk
  | cons o r =>
    rw [hr] at hk ht hstart
    obtain ⟨ho, hor, -⟩ := tidy_cons.mp ht
    have h₁ := hstart o List.mem_cons_self
    have h₂ := hor k hk
    have h₃ := ho.nonempty
    unfold Before at h₂
    omega

/-- One call of `fix_overlap` on an overlap: either both nodes stay, or the
recursion goes on from `dropped` or from `splitted`. -/
theorem FixPre.body_endsIn (h : FixPre T s pre first (second :: rest))
    {fix : Ptr → State → Outcome} {add : MemoryMapEntry → State → Outcome} {Q : State → Prop}
    {ok : String → Prop}
    (hstay : ∀ s', Settled T s s' pre first (second :: rest) (second :: rest) → Q s')
    (hdrop : Swallows s first second →
      EndsIn ok s Q (fix first (Mmap.dropped s pre first second rest)))
    (hsplit : (s.entry second).physicalStart + (s.entry second).size <
        (s.entry first).physicalStart + (s.entry first).size →
      rank s.overlapPrecedence (s.entry second).type <
        rank s.overlapPrecedence (s.entry first).type →
      EndsIn ok s Q (add (tailEntry (s.entry first) (s.entry second)) (splitted s first second))) :
    EndsIn ok s Q (fixOverlapBody fix add first s) := by
  obtain ⟨free, ho⟩ := h.owned
  obtain ⟨hn, hs, hb, ht⟩ := h.next
  have hne := hn.nonempty
  by_cases hov : Before (s.entry first) (s.entry second)
  · rw [fixOverlapBody_apart ho h.tree h.good hov]
    refine .returned fun _ => hstay s
      (h.refl_settled (List.forall_mem_cons.mpr ⟨hov, fun m hm => ?_⟩))
    have := hb _ (List.mem_map_of_mem hm)
    unfold Before at *
    omega
  · rw [fixOverlapBody_overlap ho h.complete h.tree h.good hn hs hov]
    dsimp only
    unfold Before at hov
    have hsettle : settle s.overlapPrecedence (s.entry first) ((second :: rest).map s.entry) = _ :=
      settle_overlap hov
    have hends : (cutFirst (s.entry first) (s.entry second)).physicalStart +
        (cutFirst (s.entry first) (s.entry second)).size = (s.entry second).physicalStart := by
      simp only [cutFirst]
      omega
    split_ifs with hlt hw hgt hw
    · rw [if_pos hlt, if_pos hw] at hsettle
      have he : (s.setEntry second (cutSecond (s.entry first) (s.entry second))).entry =
          Function.update (Function.update s.entry second
            (cutSecond (s.entry first) (s.entry second))) first (s.entry first) := by
        funext m
        by_cases hm : m = first
        · subst hm
          rw [Function.update_self]
          exact Function.update_of_ne h.not_mem.2.1 _ _
        · rw [Function.update_of_ne hm]
          rfl
      have hlow : (s.entry second).physicalStart ≤
          (cutSecond (s.entry first) (s.entry second)).physicalStart := by
        simp only [cutSecond]
        omega
      obtain ⟨hf, h₁, h₂⟩ := h.rewrite _ _ he ⟨rfl, rfl, rfl⟩ rfl (fun free ho => ho.setEntry _ _)
        (tidy_cutSecond h.good h.tidy hlt) (best_cutSecond hs hlt (by omega) hw) rfl rfl
        (.inl rfl) hlow
      exact .returned fun _ => hstay _ ⟨hf, by rw [hsettle, h₁, h₂]⟩
    · rw [if_pos hlt, if_neg hw] at hsettle
      have he : (s.setEntry first (cutFirst (s.entry first) (s.entry second))).entry =
          Function.update (Function.update s.entry second (s.entry second)) first
            (cutFirst (s.entry first) (s.entry second)) := by
        rw [Function.update_eq_self]
        rfl
      obtain ⟨hf, h₁, h₂⟩ := h.rewrite _ _ he ⟨rfl, rfl, rfl⟩ rfl (fun free ho => ho.setEntry _ _)
        (tidy_cutFirst h.good h.tidy hs) (best_cutFirst hs (by omega) hlt.le (by omega)) rfl rfl
        (.inr hends) le_rfl
      exact .returned fun _ => hstay _ ⟨hf, by rw [hsettle, h₁, h₂]⟩
    · exact hdrop ⟨hs, hgt, hw⟩
    · exact hsplit hgt (by omega)
    · rw [if_neg hlt, if_neg hgt] at hsettle
      have he : ((s.setEntry second { s.entry second with
          type := higherPrecedence s.overlapPrecedence (s.entry first).type
            (s.entry second).type }).setEntry first
              (cutFirst (s.entry first) (s.entry second))).entry = _ := rfl
      obtain ⟨hf, h₁, h₂⟩ := h.rewrite _ _ he ⟨rfl, rfl, rfl⟩ rfl
        (fun free ho => (ho.setEntry _ _).setEntry _ _) (tidy_sameEnd h.good h.tidy hs)
        (best_sameEnd hs (by omega) (rank_higherPrecedence h.complete _ _)) rfl rfl
        (.inr hends) le_rfl
      exact .returned fun _ => hstay _ ⟨hf, by rw [hsettle, h₁, h₂]⟩

end FixSteps

end Gandr.Mmap

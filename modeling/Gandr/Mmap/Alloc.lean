import Gandr.Mmap.Ensures
import Gandr.Mmap.Maximal

/-! `gd_alloc_pages` on a well-formed map whose pool need not be refilled: each
of the four ways to carve the pages out turns exactly the returned range from
conventional memory into the wanted type. -/

namespace Gandr.Mmap

/-- From `s` to `s'` the range `[r, r + n)` of conventional memory got a type. -/
structure Allocated (T : Target) (s s' : State) (type : MemoryType) (r n : ℕ) : Prop
    extends Quiet s s' where
  wellFormed : WellFormed T s'
  aligned : r % 4096 = 0
  fits : r + n ≤ T.uintptrMax
  was : ∀ x, r ≤ x → x < r + n → typeAt s.entries x = some .conventionalMemory
  now : ∀ x, typeAt s'.entries x = if r ≤ x ∧ x < r + n then some type else typeAt s.entries x

/-- The range was carved out of `mme`. Nodes of other types are not touched. -/
structure Carved (T : Target) (s s' : State) (type : MemoryType) (mme : Ptr) (r n : ℕ) : Prop
    extends Allocated T s s' type r n where
  kept : ∀ m ∈ s.tree, m ≠ mme → (s.entry m).type ≠ type → m ∈ s'.tree ∧ s'.entry m = s.entry m

theorem Carved.bumpKey {T : Target} {s s' : State} {type : MemoryType} {mme : Ptr} {r n : ℕ}
    (h : Carved T s s' type mme r n) : Carved T s s'.bumpKey type mme r n :=
  ⟨⟨⟨h.table, h.pages, h.stale⟩, h.wellFormed.bumpKey, h.aligned, h.fits, h.was, h.now⟩, h.kept⟩

section Lists

variable {Q M M' R : List MemoryMapEntry} {lo hi : ℕ} {type : MemoryType}

/-- Only the middle of a list changed, and there only a range got the type. -/
theorem typeAt_replace (hQ : ∀ x, lo ≤ x → typeAt Q x = none)
    (hM : ∀ x, typeAt M' x = if lo ≤ x ∧ x < hi then some type else typeAt M x) (x : ℕ) :
    typeAt (Q ++ (M' ++ R)) x =
      if lo ≤ x ∧ x < hi then some type else typeAt (Q ++ (M ++ R)) x := by
  simp only [typeAt_append, hM x]
  split_ifs with hx
  · rw [hQ x hx.1]
    rfl
  · rfl

theorem tidy_replace (h : Tidy (Q ++ (M ++ R))) (hM : Tidy M')
    (hQ : ∀ a ∈ Q, ∀ b ∈ M', Before a b) (hR : ∀ b ∈ M', ∀ c ∈ R, Before b c) :
    Tidy (Q ++ (M' ++ R)) := by
  rw [tidy_append, tidy_append] at h ⊢
  obtain ⟨hq, ⟨-, hr, -⟩, hqr⟩ := h
  refine ⟨hq, ⟨hM, hr, hR⟩, ?_⟩
  intro a ha b hb
  rcases List.mem_append.mp hb with hb | hb
  · exact hQ a ha b hb
  · exact hqr a ha b (List.mem_append_right _ hb)

theorem tidy_pair {a b : MemoryMapEntry} (h : Tidy (Q ++ (M ++ R))) (ga : Good a) (gb : Good b)
    (hab : Before a b) (hQ : ∀ c ∈ Q, Before c a) (hR : ∀ c ∈ R, Before b c) :
    Tidy (Q ++ ([a, b] ++ R)) := by
  have h₁ := ga.nonempty
  have h₂ := gb.nonempty
  refine tidy_replace h (tidy_cons.mpr ⟨ga, by simpa using hab, tidy_cons.mpr
    ⟨gb, by simp, tidy_nil⟩⟩) ?_ ?_
  · intro c hc d hd
    have hca := hQ c hc
    unfold Before at *
    simp only [List.mem_cons, List.not_mem_nil, or_false] at hd
    rcases hd with rfl | rfl <;> omega
  · intro d hd c hc
    have hbc := hR c hc
    unfold Before at *
    simp only [List.mem_cons, List.not_mem_nil, or_false] at hd
    rcases hd with rfl | rfl <;> omega

theorem maximal_pair {a b : MemoryMapEntry} (h : Tidy (Q ++ ([a, b] ++ R))) (mQ : Maximal Q)
    (mR : Maximal R) (hQ : ∀ c ∈ Q, Separate c a) (hab : a.type ≠ b.type)
    (hR : ∀ c ∈ R, Separate b c) : Maximal (Q ++ ([a, b] ++ R)) := by
  refine maximal_middle h mQ (List.pairwise_cons.mpr ⟨hR, mR⟩) hQ ?_
  exact separate_first (tidy_append.mp h).2.1 fun ht => absurd ht hab

end Lists

section Neighbours

variable {T : Target} {s : State} {t : MemoryType} {q r : List Ptr} {mme : Ptr}

/-- The neighbour in front that the code tests for. -/
theorem WellFormed.prevFits (h : WellFormed T s) (ht : s.tree = q ++ mme :: r)
    (hp : PrevFits s t mme (rbPrev s mme)) :
    ∃ q' p, q = q' ++ [p] ∧ rbPrev s mme = p ∧ (s.entry p).type = t ∧
      (s.entry p).physicalStart + (s.entry p).size = (s.entry mme).physicalStart := by
  obtain ⟨free, ho⟩ := h.owned
  obtain ⟨hp0, htype, hend⟩ := hp
  rcases List.eq_nil_or_concat q with rfl | ⟨q', p, rfl⟩
  · exact absurd (rbPrev_head ho ht) hp0
  · rw [List.concat_eq_append] at ht
    have hp : rbPrev s mme = p :=
      rbPrev_append ho (by simpa using ht : s.tree = q' ++ p :: mme :: r)
    have hg : Good (s.entry p) := h.tidy.good _ (List.mem_map_of_mem (by simp [ht]))
    rw [hp] at htype hend
    rw [hg.physicalEnd] at hend
    exact ⟨q', p, List.concat_eq_append, hp, htype, hend⟩

/-- The neighbour behind that the code tests for. -/
theorem WellFormed.nextFits (h : WellFormed T s) (ht : s.tree = q ++ mme :: r)
    (hx : NextFits s t mme (rbNext s mme)) :
    ∃ nx r', r = nx :: r' ∧ rbNext s mme = nx ∧ (s.entry nx).type = t ∧
      (s.entry mme).physicalStart + (s.entry mme).size = (s.entry nx).physicalStart := by
  obtain ⟨free, ho⟩ := h.owned
  obtain ⟨hx0, htype, hend⟩ := hx
  cases r with
  | nil => exact absurd (rbNext_last ho ht) hx0
  | cons nx r' =>
    have hx : rbNext s mme = nx := rbNext_cons ho ht
    have hg : Good (s.entry mme) := h.tidy.good _ (List.mem_map_of_mem (by simp [ht]))
    rw [hx] at htype hend
    rw [hg.physicalEnd] at hend
    exact ⟨nx, r', rfl, hx, htype, hend⟩

end Neighbours

theorem toPtr_eq (T : Target) {a : ℕ} (h : a ≤ T.uintptrMax) : T.toPtr a = a := by
  refine Nat.mod_eq_of_lt ?_
  have : 0 < 2^T.ptrBits := Nat.two_pow_pos _
  unfold Target.uintptrMax Word.max at h
  omega

section Slice

variable {s : State} {q r : List Ptr} {mme new : Ptr} {type : MemoryType} {n : ℕ}

/-- What a new node holds of the first bytes of `mme`. -/
def sliced (s : State) (mme new : Ptr) (type : MemoryType) (n : ℕ) : MemoryMapEntry :=
  { s.entry new with
    type := type
    physicalStart := (s.entry mme).physicalStart
    size := n
    attributes := (s.entry mme).attributes }

/-- The new node is linked in front of `mme`. -/
theorem sliceNew_link (htidy : Tidy s.entries) (htree : s.tree = q ++ mme :: r)
    (hnodup : s.tree.Nodup) (hnew : new ∉ s.tree) (h0 : new ≠ 0) (hpos : 0 < n)
    (hsize : n ≤ (s.entry mme).size) :
    sliceNew s mme new type n = ((s.setEntry new (sliced s mme new type n)).setEntry mme
        (dropFront (s.entry mme) n)).link new (q ++ new :: mme :: r) ∧
      (sliceNew s mme new type n).entries = q.map s.entry ++
        ([sliced s mme new type n, dropFront (s.entry mme) n] ++ r.map s.entry) := by
  rw [State.entries, htree, List.map_append, List.map_cons, tidy_append, tidy_cons] at htidy
  obtain ⟨hq, ⟨hg, hb₂, -⟩, hc⟩ := htidy
  have hfits := hg.fits
  rw [htree, List.nodup_middle, List.nodup_cons, List.mem_append, not_or] at hnodup
  obtain ⟨hn₁, hn₂⟩ := hnodup.1
  rw [htree] at hnew
  simp only [List.mem_append, List.mem_cons, not_or] at hnew
  have hne : mme ≠ new := Ne.symm hnew.2.1
  generalize hs₂ : (s.setEntry new (sliced s mme new type n)).setEntry mme
    (dropFront (s.entry mme) n) = s₂
  have he : s₂.entry = Function.update (Function.update s.entry new (sliced s mme new type n)) mme
      (dropFront (s.entry mme) n) := by
    rw [← hs₂]
    rfl
  have hat : s₂.entry new = sliced s mme new type n := by
    rw [he, Function.update_of_ne (Ne.symm hne), Function.update_self]
  have hmme : s₂.entry mme = dropFront (s.entry mme) n := by rw [he, Function.update_self]
  have hstart : (dropFront (s.entry mme) n).physicalStart = (s.entry mme).physicalStart + n :=
    Word.add_of_lt (by omega)
  have hq₂ : q.map s₂.entry = q.map s.entry := by
    rw [he, map_update hn₁, map_update hnew.1]
  have hr₂ : r.map s₂.entry = r.map s.entry := by
    rw [he, map_update hn₂, map_update hnew.2.2]
  have heq : sliceNew s mme new type n = (rbInsert s₂ new).2 := by
    have hmp : (s.setEntry new (sliced s mme new type n)).entry mme = s.entry mme :=
      Function.update_of_ne hne _ _
    rw [← hs₂]
    unfold sliceNew
    dsimp only
    rw [← sliced, hmp]
  have hins : rbInsert s₂ new = (0, s₂.link new (q ++ new :: mme :: r)) := by
    refine rbInsert_new h0 (by rw [← hs₂]; exact htree) ?_ ?_
    · intro m hm
      rw [hat, List.map_inj_left.mp hq₂ m hm]
      have h₁ := hc _ (List.mem_map_of_mem hm) _ List.mem_cons_self
      have h₂ := (hq.good _ (List.mem_map_of_mem hm)).nonempty
      unfold Before at h₁
      change _ < (s.entry mme).physicalStart
      omega
    · rw [hat]
      change ∀ m ∈ mme :: r, (s.entry mme).physicalStart < _
      refine List.forall_mem_cons.mpr ⟨by rw [hmme, hstart]; omega, fun m hm => ?_⟩
      have h₁ := hb₂ _ (List.mem_map_of_mem hm)
      rw [List.map_inj_left.mp hr₂ m hm]
      unfold Before at h₁
      have := hg.nonempty
      omega
  rw [heq, hins]
  refine ⟨rfl, ?_⟩
  change (q ++ new :: mme :: r).map s₂.entry = _
  rw [List.map_append, List.map_cons, List.map_cons, hq₂, hr₂, hat, hmme]
  rfl

end Slice

/-- The entry `mme` that the search stops at, between `q` and `r`. -/
structure Carving (T : Target) (s : State) (type : MemoryType) (n : ℕ) (q : List Ptr) (mme : Ptr)
    (r : List Ptr) : Prop where
  wellFormed : WellFormed T s
  tree : s.tree = q ++ mme :: r
  conventional : (s.entry mme).type = .conventionalMemory
  pos : 0 < n
  aligned : n % 4096 = 0
  size : n ≤ (s.entry mme).size
  below : (s.entry mme).physicalStart + n ≤ T.uintptrMax

namespace Carving

variable {T : Target} {s : State} {type : MemoryType} {n : ℕ} {q r : List Ptr} {mme : Ptr}

theorem entries (h : Carving T s type n q mme r) :
    s.entries = q.map s.entry ++ s.entry mme :: r.map s.entry := by
  rw [State.entries, h.tree, List.map_append, List.map_cons]

theorem tidy (h : Carving T s type n q mme r) :
    Tidy (q.map s.entry) ∧ Good (s.entry mme) ∧ Tidy (r.map s.entry) ∧
      (∀ a ∈ q.map s.entry, Before a (s.entry mme)) ∧
      (∀ b ∈ r.map s.entry, Before (s.entry mme) b) ∧
      ∀ a ∈ q.map s.entry, ∀ b ∈ r.map s.entry, Before a b := by
  have ht := h.wellFormed.tidy
  rw [h.entries, tidy_append, tidy_cons] at ht
  obtain ⟨hq, ⟨hg, hb, hr⟩, hc⟩ := ht
  exact ⟨hq, hg, hr, fun a ha => hc a ha _ List.mem_cons_self, hb,
    fun a ha b hb' => hc a ha b (List.mem_cons_of_mem _ hb')⟩

theorem maximal' (h : Carving T s type n q mme r) (hm : Maximal s.entries) :
    Maximal (q.map s.entry) ∧ Maximal (r.map s.entry) ∧
      (∀ a ∈ q.map s.entry, Separate a (s.entry mme)) ∧
      ∀ b ∈ r.map s.entry, Separate (s.entry mme) b := by
  rw [h.entries] at hm
  obtain ⟨hq, hr, hc⟩ := List.pairwise_append.mp hm
  obtain ⟨hb, hr⟩ := List.pairwise_cons.mp hr
  exact ⟨hq, hr, fun a ha => hc a ha _ List.mem_cons_self, hb⟩

/-- The addresses that are taken were conventional memory. -/
theorem was (h : Carving T s type n q mme r) {x : ℕ}
    (h₁ : (s.entry mme).physicalStart ≤ x)
    (h₂ : x < (s.entry mme).physicalStart + (s.entry mme).size) :
    typeAt s.entries x = some .conventionalMemory := by
  rw [← h.conventional]
  exact typeAt_of_mem h.wellFormed.tidy (by simp [h.entries]) h₁ h₂

/-- New contents for some nodes, in the middle of the map. -/
theorem replaced (h : Carving T s type n q mme r) {s' : State} {Q M M' R : List MemoryMapEntry}
    {lo : ℕ} (hc : Complete s'.overlapPrecedence) (ho : ∃ free, Owned T s' [] free)
    (hquiet : Quiet s s') (hold : s.entries = Q ++ (M ++ R)) (hnew : s'.entries = Q ++ (M' ++ R))
    (htidy : Tidy s'.entries)
    (hkept : ∀ m ∈ s.tree, m ≠ mme → (s.entry m).type ≠ type →
      m ∈ s'.tree ∧ s'.entry m = s.entry m)
    (hlo : lo % 4096 = 0) (hfits : lo + n ≤ T.uintptrMax)
    (hin : (s.entry mme).physicalStart ≤ lo ∧
      lo + n ≤ (s.entry mme).physicalStart + (s.entry mme).size)
    (hQ : ∀ x, lo ≤ x → typeAt Q x = none)
    (hM : ∀ x, typeAt M' x = if lo ≤ x ∧ x < lo + n then some type else typeAt M x) :
    Carved T s s' type mme lo n := by
  refine ⟨⟨hquiet, ⟨hc, ho, htidy⟩, hlo, hfits, ?_, ?_⟩, hkept⟩
  · intro x h₁ h₂
    exact h.was (by omega) (by omega)
  · intro x
    rw [hnew, hold]
    exact typeAt_replace hQ hM x

/-- The whole entry is taken: it is retyped and merged with its neighbours. -/
theorem whole (h : Carving T s type n q mme r) (hsize : (s.entry mme).size = n) :
    Carved T s (mergeAdjacent (s.setEntry mme { s.entry mme with type := type }) mme).bumpKey
        type mme (s.entry mme).physicalStart n ∧
      (Maximal s.entries →
        Maximal (mergeAdjacent (s.setEntry mme { s.entry mme with type := type }) mme).entries) := by
  obtain ⟨free, ho⟩ := h.wellFormed.owned
  obtain ⟨hq, hg, hr, hb₁, hb₂, hc⟩ := h.tidy
  obtain ⟨hn₁, hn₂⟩ := ho.not_mem h.tree
  generalize hm' : ({ s.entry mme with type := type } : MemoryMapEntry) = m'
  have hg' : Good m' := hm' ▸ ⟨hg.startAligned, hg.sizeAligned, hg.nonempty, hg.fits⟩
  have hstart : m'.physicalStart = (s.entry mme).physicalStart := hm' ▸ rfl
  have hsize' : m'.size = (s.entry mme).size := hm' ▸ rfl
  have htype : m'.type = type := hm' ▸ rfl
  have hq' : q.map (s.setEntry mme m').entry = q.map s.entry := map_update hn₁
  have hr' : r.map (s.setEntry mme m').entry = r.map s.entry := map_update hn₂
  have hself : (s.setEntry mme m').entry mme = m' := Function.update_self ..
  have hmap : (s.setEntry mme m').entries = q.map s.entry ++ ([m'] ++ r.map s.entry) := by
    change s.tree.map (s.setEntry mme m').entry = _
    rw [h.tree, List.map_append, List.map_cons, hq', hr', hself]
    rfl
  have htidy : Tidy (s.setEntry mme m').entries := by
    have ht := h.wellFormed.tidy
    rw [h.entries] at ht
    rw [hmap]
    refine tidy_replace (M := [s.entry mme]) ht (tidy_cons.mpr ⟨hg', by simp, tidy_nil⟩) ?_ ?_
    · intro a ha b hb
      obtain rfl := List.mem_singleton.mp hb
      have := hb₁ a ha
      unfold Before at *
      omega
    · intro b hb c hc'
      obtain rfl := List.mem_singleton.mp hb
      have := hb₂ c hc'
      unfold Before at *
      omega
  obtain ⟨hwf, hmax, hquiet, hsame⟩ := mergeAdjacent_settles (s := s.setEntry mme m')
    h.wellFormed.complete (ho.setEntry mme m') h.tree htidy
  have hquiet' : Quiet s (mergeAdjacent (s.setEntry mme m') mme) :=
    ⟨hquiet.table, hquiet.pages, hquiet.stale⟩
  refine ⟨Carved.bumpKey ⟨⟨hquiet', hwf, hg.startAligned, h.below, ?_, ?_⟩, ?_⟩, ?_⟩
  · intro x h₁ h₂
    exact h.was h₁ (by omega)
  · intro x
    refine (hsame x).trans ?_
    rw [hmap, h.entries]
    refine typeAt_replace (M := [s.entry mme]) (fun y hy => typeAt_front hb₁ hy) ?_ x
    intro y
    rw [typeAt_cons, typeAt_cons, typeAt_nil, hstart, hsize', htype, ← hsize]
    split_ifs <;> rfl
  · intro m hm hne hmt
    have hsame' : (s.setEntry mme m').entry m = s.entry m := Function.update_of_ne hne _ _
    obtain ⟨h₁, h₂⟩ := mergeAdjacent_kept (s := s.setEntry mme m') (ho.setEntry mme m') h.tree
      htidy hm hne (by rw [hsame', hself, htype]; exact hmt)
    exact ⟨h₁, h₂.trans hsame'⟩
  · intro hm
    obtain ⟨mq, mr, -, -⟩ := h.maximal' hm
    exact hmax (hq' ▸ mq) (hr' ▸ mr)

/-- The entry in front ends here and grows over the first pages. -/
theorem front {q' : List Ptr} {p : Ptr} (h : Carving T s type n (q' ++ [p]) mme r)
    (hlt : n < (s.entry mme).size) (htype : (s.entry p).type = type)
    (hend : (s.entry p).physicalStart + (s.entry p).size = (s.entry mme).physicalStart) :
    Carved T s (slicePrev s mme p n).bumpKey type mme (s.entry mme).physicalStart n ∧
      (type ≠ .conventionalMemory → Maximal s.entries →
        Maximal (slicePrev s mme p n).entries) := by
  obtain ⟨free, ho⟩ := h.wellFormed.owned
  obtain ⟨hq, hg, hr, hb₁, hb₂, hc⟩ := h.tidy
  have hfits := hg.fits
  have hpos := h.pos
  have htree : s.tree = q' ++ p :: mme :: r := by simpa using h.tree
  obtain ⟨hn₁, hn₂⟩ := ho.not_mem h.tree
  obtain ⟨hp₁, hp₂⟩ := ho.not_mem htree
  simp only [List.mem_append, List.mem_cons, not_or] at hn₁ hp₂
  have hne : mme ≠ p := Ne.symm hp₂.1
  rw [List.map_append, tidy_append] at hq
  obtain ⟨tq, tp, hqp⟩ := hq
  have hgp : Good (s.entry p) := tp.good _ (by simp)
  have hpne := hgp.nonempty
  -- the two new entries
  generalize hp' : ({ s.entry p with size := Word.add 64 (s.entry p).size n } :
    MemoryMapEntry) = p'
  generalize hm' : dropFront (s.entry mme) n = m'
  have p₁ : p'.physicalStart = (s.entry p).physicalStart := hp' ▸ rfl
  have p₂ : p'.size = (s.entry p).size + n := hp' ▸ Word.add_of_lt (by omega)
  have p₃ : p'.type = type := hp' ▸ htype
  have m₁ : m'.physicalStart = (s.entry mme).physicalStart + n := hm' ▸ Word.add_of_lt (by omega)
  have m₂ : m'.size = (s.entry mme).size - n := hm' ▸ Word.sub_of_le (by omega) hlt.le
  have m₃ : m'.type = .conventionalMemory := hm' ▸ h.conventional
  have heq : slicePrev s mme p n = (s.setEntry p p').setEntry mme m' := by
    have hmp : (s.setEntry p p').entry mme = s.entry mme := Function.update_of_ne hne _ _
    simp only [slicePrev, hp', hmp, hm']
  have he : (slicePrev s mme p n).entry =
      Function.update (Function.update s.entry p p') mme m' := by rw [heq]; rfl
  have hnew : (slicePrev s mme p n).entries =
      q'.map s.entry ++ ([p', m'] ++ r.map s.entry) := by
    have ht : (slicePrev s mme p n).tree = q' ++ p :: mme :: r := htree
    rw [State.entries, ht, he, List.map_append, List.map_cons, List.map_cons,
      map_update hn₁.1, map_update hp₁, Function.update_of_ne (Ne.symm hne),
      Function.update_self, Function.update_self, map_update hn₂, map_update hp₂.2]
    rfl
  have hold : s.entries = q'.map s.entry ++ ([s.entry p, s.entry mme] ++ r.map s.entry) := by
    rw [State.entries, htree]
    simp
  have a₁ := hg.startAligned
  have a₂ := hg.sizeAligned
  have a₃ := hgp.startAligned
  have a₄ := hgp.sizeAligned
  have a₅ := h.aligned
  have htidy : Tidy (q'.map s.entry ++ ([p', m'] ++ r.map s.entry)) := by
    refine tidy_pair (hold ▸ h.wellFormed.tidy) ⟨by omega, by omega, by omega, by omega⟩
      ⟨by omega, by omega, by omega, by omega⟩ (by unfold Before; omega) ?_ ?_
    · intro c hc'
      have := hqp c hc' (s.entry p) (by simp)
      unfold Before at *
      omega
    · intro c hc'
      have := hb₂ c hc'
      unfold Before at *
      omega
  have hmax : type ≠ .conventionalMemory → Maximal s.entries →
      Maximal (q'.map s.entry ++ ([p', m'] ++ r.map s.entry)) := by
    intro hwanted hm
    obtain ⟨mq, mr, -, mb⟩ := h.maximal' hm
    rw [List.map_append] at mq
    obtain ⟨mq', -, mqp⟩ := List.pairwise_append.mp mq
    refine maximal_pair htidy mq' mr ?_ (by rw [p₃, m₃]; exact hwanted) ?_
    · intro c hc' ht hend'
      refine mqp c hc' (s.entry p) (by simp) (ht.trans (p₃.trans htype.symm)) ?_
      omega
    · intro c hc' ht hend'
      refine mb c hc' (h.conventional.trans (m₃.symm.trans ht)) ?_
      omega
  refine ⟨Carved.bumpKey (h.replaced h.wellFormed.complete ⟨free, ?_⟩ ⟨rfl, rfl, rfl⟩ hold hnew
    (hnew ▸ htidy) ?_ a₁ h.below ⟨le_rfl, by omega⟩ ?_ ?_), hnew ▸ hmax⟩
  · rw [heq]
    exact (ho.setEntry _ _).setEntry _ _
  · intro m hm hmme hmt
    have hmp : m ≠ p := by
      rintro rfl
      exact hmt htype
    refine ⟨hm, ?_⟩
    rw [he, Function.update_of_ne hmme, Function.update_of_ne hmp]
  · intro x hx
    refine typeAt_front (b := s.entry mme) ?_ hx
    intro a ha
    exact hb₁ a (by rw [List.map_append]; exact List.mem_append_left _ ha)
  · intro x
    simp only [typeAt_cons, typeAt_nil, p₁, p₂, p₃, m₁, m₂, m₃, htype, h.conventional]
    split_ifs <;> first | rfl | omega

/-- The entry behind starts here and grows over the last pages. -/
theorem back {r' : List Ptr} {nx : Ptr} (h : Carving T s type n q mme (nx :: r'))
    (hlt : n < (s.entry mme).size) (htype : (s.entry nx).type = type)
    (hend : (s.entry mme).physicalStart + (s.entry mme).size = (s.entry nx).physicalStart)
    (hmax : (s.entry mme).physicalStart + (s.entry mme).size ≤ T.uintptrMax) :
    Carved T s (sliceNext s mme nx n).bumpKey type mme ((s.entry nx).physicalStart - n) n ∧
      ((sliceNext s mme nx n).entry nx).physicalStart = (s.entry nx).physicalStart - n ∧
      (type ≠ .conventionalMemory → Maximal s.entries →
        Maximal (sliceNext s mme nx n).entries) := by
  obtain ⟨free, ho⟩ := h.wellFormed.owned
  obtain ⟨hq, hg, hr, hb₁, hb₂, hc⟩ := h.tidy
  have hfits := hg.fits
  have hpos := h.pos
  obtain ⟨hn₁, hn₂⟩ := ho.not_mem h.tree
  obtain ⟨hx₁, hx₂⟩ := ho.not_mem
    (by simpa using h.tree : s.tree = (q ++ [mme]) ++ nx :: r')
  simp only [List.mem_append, List.mem_cons, not_or] at hn₂ hx₁
  have hne : mme ≠ nx := hn₂.1
  rw [List.map_cons] at hr hb₂
  obtain ⟨hgx, hbx, tr⟩ := tidy_cons.mp hr
  have hxfits := hgx.fits
  generalize hx' : ({ s.entry nx with
    size := Word.add 64 (s.entry nx).size n
    physicalStart := Word.sub 64 (s.entry nx).physicalStart n } : MemoryMapEntry) = x'
  generalize hm' : ({ s.entry mme with size := Word.sub 64 (s.entry mme).size n } :
    MemoryMapEntry) = m'
  have x₁ : x'.physicalStart = (s.entry nx).physicalStart - n :=
    hx' ▸ Word.sub_of_le (by omega) (by omega)
  have x₂ : x'.size = (s.entry nx).size + n := hx' ▸ Word.add_of_lt (by omega)
  have x₃ : x'.type = type := hx' ▸ htype
  have m₁ : m'.physicalStart = (s.entry mme).physicalStart := hm' ▸ rfl
  have m₂ : m'.size = (s.entry mme).size - n := hm' ▸ Word.sub_of_le (by omega) hlt.le
  have m₃ : m'.type = .conventionalMemory := hm' ▸ h.conventional
  have heq : sliceNext s mme nx n = (s.setEntry nx x').setEntry mme m' := by
    have hmp : (s.setEntry nx x').entry mme = s.entry mme := Function.update_of_ne hne _ _
    simp only [sliceNext, hx', hmp, hm']
  have he : (sliceNext s mme nx n).entry =
      Function.update (Function.update s.entry nx x') mme m' := by rw [heq]; rfl
  have hnx : (sliceNext s mme nx n).entry nx = x' := by
    rw [he, Function.update_of_ne (Ne.symm hne), Function.update_self]
  have hnew : (sliceNext s mme nx n).entries =
      q.map s.entry ++ ([m', x'] ++ r'.map s.entry) := by
    have ht : (sliceNext s mme nx n).tree = q ++ mme :: nx :: r' := h.tree
    rw [State.entries, ht, List.map_append, List.map_cons, List.map_cons, hnx, he,
      map_update hn₁, map_update hx₁.1, Function.update_self, map_update hn₂.2, map_update hx₂]
    rfl
  have hold : s.entries = q.map s.entry ++ ([s.entry mme, s.entry nx] ++ r'.map s.entry) := by
    rw [h.entries]
    rfl
  have a₁ := hg.startAligned
  have a₂ := hg.sizeAligned
  have a₃ := hgx.startAligned
  have a₄ := hgx.sizeAligned
  have a₅ := h.aligned
  have htidy : Tidy (q.map s.entry ++ ([m', x'] ++ r'.map s.entry)) := by
    refine tidy_pair (hold ▸ h.wellFormed.tidy) ⟨by omega, by omega, by omega, by omega⟩
      ⟨by omega, by omega, by omega, by omega⟩ (by unfold Before; omega) ?_ ?_
    · intro c hc'
      have := hb₁ c hc'
      unfold Before at *
      omega
    · intro c hc'
      have := hbx c hc'
      unfold Before at *
      omega
  have hmaximal : type ≠ .conventionalMemory → Maximal s.entries →
      Maximal (q.map s.entry ++ ([m', x'] ++ r'.map s.entry)) := by
    intro hwanted hm
    obtain ⟨mq, mr, ma, mb⟩ := h.maximal' hm
    rw [List.map_cons] at mr mb
    obtain ⟨mx, mr'⟩ := List.pairwise_cons.mp mr
    refine maximal_pair htidy mq mr' ?_ (by rw [x₃, m₃]; exact Ne.symm hwanted) ?_
    · intro c hc' ht hend'
      refine ma c hc' (ht.trans (m₃.trans h.conventional.symm)) ?_
      omega
    · intro c hc' ht hend'
      refine mx c hc' (htype.trans (x₃.symm.trans ht)) ?_
      omega
  refine ⟨Carved.bumpKey (h.replaced h.wellFormed.complete ⟨free, ?_⟩ ⟨rfl, rfl, rfl⟩ hold hnew
    (hnew ▸ htidy) ?_ (by omega) (by omega) ⟨by omega, by omega⟩ ?_ ?_), by rw [hnx, x₁],
    hnew ▸ hmaximal⟩
  · rw [heq]
    exact (ho.setEntry _ _).setEntry _ _
  · intro m hm hmme hmt
    have hmx : m ≠ nx := by
      rintro rfl
      exact hmt htype
    refine ⟨hm, ?_⟩
    rw [he, Function.update_of_ne hmme, Function.update_of_ne hmx]
  · intro x hx
    exact typeAt_front hb₁ (by omega)
  · intro x
    simp only [typeAt_cons, typeAt_nil, x₁, x₂, x₃, m₁, m₂, m₃, htype, h.conventional]
    split_ifs <;> first | rfl | omega

/-- Neither neighbour fits: a new node takes the first pages. -/
theorem fresh (h : Carving T s type n q mme r) (hlt : n < (s.entry mme).size)
    {s₁ : State} {new : Ptr} {free : List Ptr}
    (hown : Owned T s₁ [new] free) (htree : s₁.tree = s.tree) (hentry : s₁.entry = s.entry)
    (hquiet : Quiet s s₁) :
    Carved T s (sliceNew s₁ mme new type n).bumpKey type mme (s.entry mme).physicalStart n ∧
      (new ∈ (sliceNew s₁ mme new type n).tree ∧
        range ((sliceNew s₁ mme new type n).entry new) =
          ((s.entry mme).physicalStart, n, type)) ∧
      (type ≠ .conventionalMemory → Maximal s.entries → ¬ PrevFits s type mme (rbPrev s mme) →
        Maximal (sliceNew s₁ mme new type n).entries) := by
  obtain ⟨hq, hg, hr, hb₁, hb₂, hc⟩ := h.tidy
  obtain ⟨free₀, ho⟩ := h.wellFormed.owned
  have hfits := hg.fits
  have hpos := h.pos
  have htidy₁ : Tidy s₁.entries := by
    rw [State.entries, htree, hentry]
    exact h.wellFormed.tidy
  obtain ⟨heq, hentries⟩ := @sliceNew_link s₁ q r mme new type n htidy₁ (htree.trans h.tree)
    hown.tree_nodup hown.fresh.2.1 hown.fresh.1 hpos (by rw [hentry]; exact h.size)
  have hsliced : sliced s₁ mme new type n = { s.entry new with
      type := type
      physicalStart := (s.entry mme).physicalStart
      size := n
      attributes := (s.entry mme).attributes } := by
    rw [sliced, hentry]
  rw [hsliced, hentry] at heq hentries
  generalize hc' : ({ s.entry new with
    type := type
    physicalStart := (s.entry mme).physicalStart
    size := n
    attributes := (s.entry mme).attributes } : MemoryMapEntry) = c' at heq hentries
  generalize hm' : dropFront (s.entry mme) n = m' at heq hentries
  have c₁ : c'.physicalStart = (s.entry mme).physicalStart := hc' ▸ rfl
  have c₂ : c'.size = n := hc' ▸ rfl
  have c₃ : c'.type = type := hc' ▸ rfl
  have m₁ : m'.physicalStart = (s.entry mme).physicalStart + n := hm' ▸ Word.add_of_lt (by omega)
  have m₂ : m'.size = (s.entry mme).size - n := hm' ▸ Word.sub_of_le (by omega) hlt.le
  have m₃ : m'.type = .conventionalMemory := hm' ▸ h.conventional
  generalize hs₂ : (s₁.setEntry new c').setEntry mme m' = s₂ at heq
  have he : s₂.entry = Function.update (Function.update s.entry new c') mme m' := by
    rw [← hs₂, ← hentry]
    rfl
  have hne : mme ≠ new := by
    rintro rfl
    exact hown.fresh.2.1 (by rw [htree, h.tree]; simp)
  have hnew : s₂.entry new = c' := by
    rw [he, Function.update_of_ne (Ne.symm hne), Function.update_self]
  have htree₂ : s₂.tree = q ++ mme :: r := by rw [← hs₂, ← h.tree]; exact htree
  rw [heq] at hentries ⊢
  have a₁ := hg.startAligned
  have a₂ := hg.sizeAligned
  have a₅ := h.aligned
  have htidy : Tidy (q.map s.entry ++ ([c', m'] ++ r.map s.entry)) := by
    refine tidy_pair (M := [s.entry mme]) (h.entries ▸ h.wellFormed.tidy)
      ⟨by omega, by omega, by omega, by omega⟩ ⟨by omega, by omega, by omega, by omega⟩
      (by unfold Before; omega) ?_ ?_
    · intro c hc'
      have := hb₁ c hc'
      unfold Before at *
      omega
    · intro c hc'
      have := hb₂ c hc'
      unfold Before at *
      omega
  have hmaximal : type ≠ .conventionalMemory → Maximal s.entries →
      ¬ PrevFits s type mme (rbPrev s mme) →
      Maximal (q.map s.entry ++ ([c', m'] ++ r.map s.entry)) := by
    intro hwanted hm hprev
    obtain ⟨mq, mr, ma, mb⟩ := h.maximal' hm
    refine maximal_pair htidy mq mr ?_ (by rw [c₃, m₃]; exact hwanted) ?_
    · rcases List.eq_nil_or_concat q with rfl | ⟨q', p, rfl⟩
      · simp
      · rw [List.concat_eq_append] at *
        rw [List.map_append] at htidy ⊢
        have hp : rbPrev s mme = p :=
          rbPrev_append ho (by simpa using h.tree : s.tree = q' ++ p :: mme :: r)
        have hp0 : p ≠ 0 := ho.ne_null (by simp [h.tree])
        have hgp : Good (s.entry p) := hq.good _ (by simp)
        refine separate_last (p := s.entry p) (by simpa using htidy) ?_
        intro ht hend'
        refine hprev ⟨hp ▸ hp0, ?_, ?_⟩
        · rw [hp, ht, c₃]
        · rw [hp, hgp.physicalEnd, hend', c₁]
    · intro c hc' ht hend'
      refine mb c hc' (h.conventional.trans (m₃.symm.trans ht)) ?_
      omega
  have hownew : Owned T (s₂.link new (q ++ new :: mme :: r)) [] free := by
    refine Owned.link (s := s₂) ?_ htree₂
    rw [← hs₂]
    exact (hown.setEntry _ _).setEntry _ _
  have hquiet₂ : Quiet s s₂ := by
    rw [← hs₂]
    exact ⟨hquiet.table, hquiet.pages, hquiet.stale⟩
  refine ⟨Carved.bumpKey (h.replaced (M := [s.entry mme]) ?_ ⟨free, hownew⟩
    ⟨hquiet₂.table, hquiet₂.pages, hquiet₂.stale⟩ h.entries hentries (hentries ▸ htidy) ?_ a₁ h.below
    ⟨le_rfl, Nat.add_le_add_left h.size _⟩ ?_ ?_),
    ⟨List.mem_append_right _ List.mem_cons_self, ?_⟩, hentries ▸ hmaximal⟩
  · change Complete s₂.overlapPrecedence
    rw [hquiet₂.table]
    exact h.wellFormed.complete
  · intro m hm hmme _
    have hmn : m ≠ new := by
      rintro rfl
      exact hown.fresh.2.1 (htree ▸ hm)
    refine ⟨?_, ?_⟩
    · rw [h.tree] at hm
      simp only [List.mem_append, List.mem_cons] at hm
      change m ∈ q ++ new :: mme :: r
      simp only [List.mem_append, List.mem_cons]
      exact hm.imp_right .inr
    · change s₂.entry m = _
      rw [he, Function.update_of_ne hmme, Function.update_of_ne hmn]
  · intro x hx
    exact typeAt_front hb₁ hx
  · intro x
    simp only [typeAt_cons, typeAt_nil, c₁, c₂, c₃, m₁, m₂, m₃, h.conventional]
    split_ifs <;> first | rfl | omega
  · change range (s₂.entry new) = _
    rw [hnew, range, c₁, c₂, c₃]

end Carving

section Search

variable {T : Target} {s : State} {type : MemoryType} {n : ℕ}

/-- The search stops at the first conventional entry that is large enough. -/
theorem allocSearch_cases (T : Target) (type : MemoryType) (n : ℕ) (s : State) (l : List Ptr) :
    allocSearch T type n s l = .ok ⟨enomem, none, s⟩ ∨ ∃ l₁ mme l₂, l = l₁ ++ mme :: l₂ ∧
      (∀ k ∈ l₁, ¬ ((s.entry k).type = .conventionalMemory ∧ n ≤ (s.entry k).size)) ∧
      Word.add 64 (s.entry mme).physicalStart n ≤ T.uintptrMax ∧
      (s.entry mme).type = .conventionalMemory ∧ n ≤ (s.entry mme).size ∧
      allocSearch T type n s l = allocFrom T type n s mme := by
  induction l with
  | nil => exact .inl rfl
  | cons mme rest ih =>
    rw [allocSearch]
    split_ifs with h₁ h₂
    · exact .inl rfl
    · exact .inr ⟨[], mme, rest, rfl, by simp, not_lt.mp h₁, h₂.1, h₂.2, rfl⟩
    · rcases ih with ih | ⟨l₁, k, l₂, rfl, hk, h₃⟩
      · exact .inl ih
      · exact .inr ⟨mme :: l₁, k, l₂, rfl, List.forall_mem_cons.mpr ⟨h₂, hk⟩, h₃⟩

/-- The pages were carved out, or the pool had to be refilled. -/
theorem Carving.allocFrom_spec {q r : List Ptr} {mme : Ptr} (h : Carving T s type n q mme r) :
    allocFrom T type n s mme = .ok ⟨enomem, none, s⟩ ∨
    (∃ a s', allocFrom T type n s mme = .ok ⟨0, some a, s'⟩ ∧ Allocated T s s' type a n ∧
      (type ≠ .conventionalMemory → Maximal s.entries → Maximal s'.entries)) ∨
    (¬ PoolReady s ∧ (allocFrom T type n s mme = .error "Out of memory" ∨
      ∃ a s', allocFrom T type n s mme = .ok ⟨0, some a, s'⟩ ∧ s'.refills = s.refills + 1)) := by
  obtain ⟨free, ho⟩ := h.wellFormed.owned
  obtain ⟨-, hg, -⟩ := h.tidy
  have hsize := h.size
  have hptr : T.toPtr (s.entry mme).physicalStart = (s.entry mme).physicalStart :=
    toPtr_eq T (by have := h.below; omega)
  unfold allocFrom
  dsimp only
  rw [hptr]
  split_ifs with h₁ h₂ h₃ h₄
  · obtain ⟨ha, hm⟩ := h.whole h₁
    dsimp only at ha hm
    exact .inr (.inl ⟨_, _, rfl, ha.toAllocated, fun _ => hm⟩)
  · obtain ⟨q', p, rfl, hp, htype, hend⟩ := h.wellFormed.prevFits h.tree h₂
    rw [hp]
    obtain ⟨ha, hm⟩ := h.front (by omega) htype hend
    exact .inr (.inl ⟨_, _, rfl, ha.toAllocated, hm⟩)
  · exact .inl rfl
  · obtain ⟨nx, r', rfl, hx, htype, hend⟩ := h.wellFormed.nextFits h.tree h₃
    rw [hg.physicalEnd] at h₄
    obtain ⟨ha, hstart, hm⟩ := h.back (by omega) htype hend (not_lt.mp h₄)
    have hfits := ha.fits
    rw [hx, hstart, toPtr_eq T (by omega)]
    exact .inr (.inl ⟨_, _, rfl, ha.toAllocated, hm⟩)
  · by_cases hpool : PoolReady s
    · obtain ⟨new, s₁, free', halloc, hown, htree, hentry, -, -, hquiet⟩ :=
        mmapAllocEntry_pool ho hpool
      rw [halloc]
      obtain ⟨ha, -, hm⟩ := h.fresh (by omega) hown htree hentry hquiet
      exact .inr (.inl ⟨_, _, rfl, ha.toAllocated, fun hw hmax => hm hw hmax h₂⟩)
    · refine .inr (.inr ⟨hpool, ?_⟩)
      cases halloc : mmapAllocEntry T s with
      | error m => exact .inl (by rw [(mmapAllocEntry_error halloc).2])
      | ok res =>
        obtain ⟨new, s₁⟩ := res
        refine .inr ⟨_, _, rfl, ?_⟩
        rw [refills_bumpKey, refills_sliceNew, refills_mmapAllocEntry halloc,
          if_pos (not_poolReady hpool)]

/-- The search on a well-formed map: it fails and changes nothing, it carves the
pages out, or the pool has to be refilled. -/
theorem allocSearch_spec (hwf : WellFormed T s) (hpos : 0 < n) (hal : n % 4096 = 0) :
    allocSearch T type n s s.tree = .ok ⟨enomem, none, s⟩ ∨
    (∃ a s', allocSearch T type n s s.tree = .ok ⟨0, some a, s'⟩ ∧ Allocated T s s' type a n ∧
      (type ≠ .conventionalMemory → Maximal s.entries → Maximal s'.entries)) ∨
    (¬ PoolReady s ∧ (allocSearch T type n s s.tree = .error "Out of memory" ∨
      ∃ a s', allocSearch T type n s s.tree = .ok ⟨0, some a, s'⟩ ∧
        s'.refills = s.refills + 1)) := by
  rcases allocSearch_cases T type n s s.tree with
    hnone | ⟨l₁, mme, l₂, htree, -, hbelow, hconv, hsize, heq⟩
  · exact .inl hnone
  · have hg : Good (s.entry mme) :=
      hwf.tidy.good _ (List.mem_map_of_mem (by rw [htree]; simp))
    have hfits := hg.fits
    rw [Word.add_of_lt (by omega)] at hbelow
    rw [heq]
    exact Carving.allocFrom_spec ⟨hwf, htree, hconv, hpos, hal, hsize, hbelow⟩

theorem gdAllocPages_eq {count : ℕ} (hcount : 1 ≤ count) (hrep : count * 4096 < 2^T.ptrBits) :
    gdAllocPages T type count s = allocSearch T type (4096 * count) s s.tree := by
  rw [gdAllocPages, if_neg (by omega), Word.mul_of_lt hrep, Nat.mul_comm]

theorem gdAllocPages_spec {count : ℕ} (hwf : WellFormed T s) (hcount : 1 ≤ count)
    (hrep : count * 4096 < 2^T.ptrBits) :
    gdAllocPages T type count s = .ok ⟨enomem, none, s⟩ ∨
    (∃ a s', gdAllocPages T type count s = .ok ⟨0, some a, s'⟩ ∧
      Allocated T s s' type a (4096 * count) ∧
      (type ≠ .conventionalMemory → Maximal s.entries → Maximal s'.entries)) ∨
    (¬ PoolReady s ∧ (gdAllocPages T type count s = .error "Out of memory" ∨
      ∃ a s', gdAllocPages T type count s = .ok ⟨0, some a, s'⟩ ∧
        s'.refills = s.refills + 1)) := by
  rw [gdAllocPages_eq hcount hrep]
  exact allocSearch_spec hwf (by omega) (by omega)

end Search

end Gandr.Mmap

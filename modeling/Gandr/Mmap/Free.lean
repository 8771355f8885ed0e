import Gandr.Mmap.AddEntry
import Gandr.Mmap.Alloc

/-! `gd_free_pages` on a range inside one entry of the map: conventional memory
wins over the type that is freed, and the entry is retyped, cut at one end or
split in three. -/

namespace Gandr.Mmap

/-- From `s` to `u` the range `[lo, lo + n)` became conventional memory. -/
structure Freed (T : Target) (s u : State) (lo n : ℕ) : Prop where
  wellFormed : WellFormed T u
  maximal : Maximal u.entries
  table : u.overlapPrecedence = s.overlapPrecedence
  now : ∀ x, typeAt u.entries x =
    if lo ≤ x ∧ x < lo + n then some .conventionalMemory else typeAt s.entries x

/-- Before the call: `e` lies in the entry `p`, while the table of
`gd_free_pages` is in force. -/
structure Freeing (T : Target) (s : State) (q : List Ptr) (p : Ptr) (r : List Ptr)
    (e : MemoryMapEntry) : Prop where
  wellFormed : WellFormed T s
  table : s.overlapPrecedence = freeOverlapPrecedence
  maximal : Maximal s.entries
  tree : s.tree = q ++ p :: r
  good : Good e
  conventional : e.type = .conventionalMemory
  held : (s.entry p).type ≠ .conventionalMemory
  usable : (s.entry p).type ≠ .unusableMemory
  lower : (s.entry p).physicalStart ≤ e.physicalStart
  upper : e.physicalStart + e.size ≤ (s.entry p).physicalStart + (s.entry p).size

/-- Conventional memory wins over all but unusable memory. -/
theorem free_rank {t : MemoryType} (h₁ : t ≠ .conventionalMemory) (h₂ : t ≠ .unusableMemory) :
    rank freeOverlapPrecedence .conventionalMemory < rank freeOverlapPrecedence t := by
  cases t <;> first | contradiction | decide

theorem higherPrecedence_free {t : MemoryType} (h₁ : t ≠ .conventionalMemory)
    (h₂ : t ≠ .unusableMemory) :
    higherPrecedence freeOverlapPrecedence t .conventionalMemory = .conventionalMemory := by
  rw [higherPrecedence_eq _ _ (freeOverlapPrecedence_complete t),
    if_neg (not_le.mpr (free_rank h₁ h₂))]

theorem mergeAdjacent_self {T : Target} {s : State} {free q r : List Ptr} {mid : Ptr}
    (ho : Owned T s [] free) (ht : s.tree = q ++ mid :: r)
    (hprev : ∀ p ∈ q.getLast?, ¬ Mergeable s p mid)
    (hnext : ∀ k ∈ r.head?, ¬ Mergeable s mid k) : mergeAdjacent s mid = s := by
  have hmid : mid ∈ s.tree := by simp [ht]
  have hn : rbNext s mid = r.headD 0 := by
    rw [rbNext, ht]
    exact Links.after_append (ho.not_mem ht).1
  have hnext' : ¬ (r.headD 0 ≠ 0 ∧ Mergeable s mid (r.headD 0)) := by
    cases r with
    | nil => simp
    | cons k r => exact fun h => hnext k rfl h.2
  have hprev' : ¬ (rbPrev s mid ≠ 0 ∧ Mergeable s (rbPrev s mid) mid) := by
    rcases List.eq_nil_or_concat q with rfl | ⟨q', p, rfl⟩
    · rw [rbPrev_head ho ht]
      simp
    · rw [rbPrev_append ho (by simpa using ht : s.tree = q' ++ p :: mid :: r)]
      exact fun h => hprev p (by simp) h.2
  simp only [mergeAdjacent, use_of_mem hmid, hn, if_neg hprev', if_neg hnext']

section Gap

variable {T : Target} {s s₂ : State} {l₁ l₂ : List Ptr} {e : MemoryMapEntry} {n : Ptr}

/-- Placing an entry that overlaps nothing. -/
theorem place_gap (h : AddPre T s [] (l₁ ++ l₂) e) (hi : Issued T s s₂ n e)
    (h₁ : ∀ m ∈ l₁, Before (s.entry m) e) (h₂ : ∀ m ∈ l₂, Before e (s.entry m)) (fuel : ℕ) :
    place (fixOverlap T (fuel + 1)) e n s₂ =
      .returned (mergeAdjacent (s₂.link n (l₁ ++ n :: l₂)) n) := by
  have hne := h.good.nonempty
  have htidy := h.tidy
  rw [List.map_append, tidy_append] at htidy
  obtain ⟨t₁, t₂, t₁₂⟩ := htidy
  have hlt₁ : ∀ m ∈ l₁, (s.entry m).physicalStart < e.physicalStart := by
    intro m hm
    have hb := h₁ m hm
    have hg := (t₁.good _ (List.mem_map_of_mem hm)).nonempty
    unfold Before at hb
    omega
  have hlt₂ : ∀ m ∈ l₂, e.physicalStart < (s.entry m).physicalStart := by
    intro m hm
    have hb := h₂ m hm
    unfold Before at hb
    omega
  obtain ⟨hins, free₃, ho₃⟩ := hi.link h.tree (by simpa using hlt₁) hlt₂
  simp only [List.nil_append] at hins ho₃
  simp only [place, hins, ne_eq, not_true, if_false, placeNew]
  generalize hs₃ : s₂.link n (l₁ ++ n :: l₂) = s₃ at *
  have htree : s₃.tree = l₁ ++ n :: l₂ := by rw [← hs₃, State.link_tree]
  have hmem : ∀ m ∈ l₁ ++ l₂, s₃.entry m = s.entry m := by
    intro m hm
    rw [← hs₃]
    exact hi.entry_of_mem (h.tree ▸ hm)
  have he₁ : ∀ m ∈ l₁, s₃.entry m = s.entry m := fun m hm => hmem m (by simp [hm])
  have he₂ : ∀ m ∈ l₂, s₃.entry m = s.entry m := fun m hm => hmem m (by simp [hm])
  have hn : s₃.entry n = e := by
    rw [← hs₃]
    exact hi.entry_self
  have hcomplete : Complete s₃.overlapPrecedence := by
    rw [← hs₃]
    exact hi.table ▸ h.complete
  have hapart : ∀ m ∈ l₂, Before (s₃.entry n) (s₃.entry m) := by
    intro m hm
    rw [hn, he₂ m hm]
    exact h₂ m hm
  have htidy₂ : Tidy (l₂.map s₃.entry) := by
    rw [List.map_congr_left he₂]
    exact t₂
  have hfix : fixOverlap T (fuel + 1) n s₃ = .returned s₃ := by
    refine fixOverlap_apart ⟨hcomplete, ⟨free₃, ho₃⟩, htree, hn ▸ h.good, htidy₂, ?_, ?_⟩ hapart fuel
    · intro m hm k hk
      rw [he₁ m hm, he₂ k hk]
      exact (hlt₁ m hm).trans (hlt₂ k hk)
    · intro m hm
      rw [hn, he₂ m hm]
      exact hlt₂ m hm
  have hfix' : fixOverlap T (fuel + 1) (rbPrev s₃ n) s₃ = .returned s₃ := by
    rcases List.eq_nil_or_concat l₁ with rfl | ⟨l, p, rfl⟩
    · rw [rbPrev_head ho₃ htree]
      exact fixOverlap_null T fuel s₃
    · rw [List.concat_eq_append] at *
      have hpn : s₃.tree = l ++ p :: n :: l₂ := by simpa using htree
      have hp : s₃.entry p = s.entry p := he₁ p (by simp)
      have hbefore : ∀ m ∈ n :: l₂, Before (s₃.entry p) (s₃.entry m) := by
        refine List.forall_mem_cons.mpr ⟨?_, fun m hm => ?_⟩
        · rw [hp, hn]
          exact h₁ p (by simp)
        · rw [hp, he₂ m hm]
          exact t₁₂ _ (List.mem_map_of_mem (by simp)) _ (List.mem_map_of_mem hm)
      have hgp : Good (s.entry p) := t₁.good _ (List.mem_map_of_mem (by simp))
      have hpne := hgp.nonempty
      rw [rbPrev_append ho₃ hpn]
      refine fixOverlap_apart ⟨hcomplete, ⟨free₃, ho₃⟩, hpn, hp ▸ hgp, ?_, ?_, ?_⟩ hbefore fuel
      · rw [List.map_cons, tidy_cons]
        exact ⟨hn ▸ h.good, by simpa using hapart, htidy₂⟩
      · intro m hm k hk
        have hm' : m ∈ l ++ [p] := List.mem_append_left _ hm
        rw [he₁ m hm']
        rcases List.mem_cons.mp hk with rfl | hk
        · rw [hn]
          exact hlt₁ m hm'
        · rw [he₂ k hk]
          exact (hlt₁ m hm').trans (hlt₂ k hk)
      · intro m hm
        have hb := hbefore m hm
        rw [hp] at hb ⊢
        unfold Before at hb
        omega
  rw [hfix]
  simp only [Outcome.andThen, hfix']

end Gap

/-- `merge_adjacent` as the last step of freeing. -/
theorem Freed.of_merge {T : Target} {s s₃ : State} {q' r' free : List Ptr} {mid : Ptr}
    {Q M M' R : List MemoryMapEntry} {lo n : ℕ} (hc : Complete s.overlapPrecedence)
    (ho : Owned T s₃ [] free) (htable : s₃.overlapPrecedence = s.overlapPrecedence)
    (ht : s₃.tree = q' ++ mid :: r') (hold : s.entries = Q ++ (M ++ R))
    (hnew : s₃.entries = Q ++ (M' ++ R)) (htidy : Tidy s₃.entries)
    (mq : Maximal (q'.map s₃.entry)) (mr : Maximal (r'.map s₃.entry))
    (hQ : ∀ x, lo ≤ x → typeAt Q x = none)
    (hM : ∀ x, typeAt M' x =
      if lo ≤ x ∧ x < lo + n then some .conventionalMemory else typeAt M x) :
    Freed T s (mergeAdjacent s₃ mid) lo n := by
  obtain ⟨hwf, hmax, ⟨htab, -, -⟩, hsame⟩ := mergeAdjacent_settles (htable ▸ hc) ho ht htidy
  refine ⟨hwf, hmax mq mr, htab.trans htable, ?_⟩
  intro x
  rw [hsame x, hnew, hold]
  exact typeAt_replace hQ hM x

theorem Freed.bumpKey {T : Target} {s u : State} {lo n : ℕ} (h : Freed T s u lo n) :
    Freed T s u.bumpKey lo n :=
  ⟨h.wellFormed.bumpKey, h.maximal, h.table, h.now⟩

namespace Freeing

variable {T : Target} {s s₂ : State} {q r : List Ptr} {p n : Ptr} {e : MemoryMapEntry}

theorem entries (h : Freeing T s q p r e) :
    s.entries = q.map s.entry ++ ([s.entry p] ++ r.map s.entry) := by
  rw [State.entries, h.tree, List.map_append, List.map_cons]
  rfl

theorem tidy (h : Freeing T s q p r e) :
    Tidy (q.map s.entry) ∧ Good (s.entry p) ∧ Tidy (r.map s.entry) ∧
      (∀ a ∈ q.map s.entry, Before a (s.entry p)) ∧
      (∀ b ∈ r.map s.entry, Before (s.entry p) b) ∧
      ∀ a ∈ q.map s.entry, ∀ b ∈ r.map s.entry, Before a b := by
  have ht := h.wellFormed.tidy
  rw [h.entries, List.singleton_append, tidy_append, tidy_cons] at ht
  obtain ⟨hq, ⟨hg, hb, hr⟩, hc⟩ := ht
  exact ⟨hq, hg, hr, fun a ha => hc a ha _ List.mem_cons_self, hb,
    fun a ha b hb' => hc a ha b (List.mem_cons_of_mem _ hb')⟩

theorem maximal' (h : Freeing T s q p r e) :
    Maximal (q.map s.entry) ∧ Maximal (r.map s.entry) ∧
      (∀ a ∈ q.map s.entry, Separate a (s.entry p)) ∧
      ∀ b ∈ r.map s.entry, Separate (s.entry p) b := by
  have hm := h.maximal
  rw [h.entries, List.singleton_append] at hm
  obtain ⟨hq, hr, hc⟩ := List.pairwise_append.mp hm
  obtain ⟨hb, hr⟩ := List.pairwise_cons.mp hr
  exact ⟨hq, hr, fun a ha => hc a ha _ List.mem_cons_self, hb⟩

theorem not_mem (h : Freeing T s q p r e) (hi : Issued T s s₂ n e) :
    p ∉ q ∧ p ∉ r ∧ n ∉ q ∧ n ≠ p ∧ n ∉ r := by
  obtain ⟨free, ho⟩ := h.wellFormed.owned
  obtain ⟨h₁, h₂⟩ := ho.not_mem h.tree
  have hn := hi.fresh
  rw [h.tree] at hn
  simp only [List.mem_append, List.mem_cons, not_or] at hn
  exact ⟨h₁, h₂, hn.1, hn.2.1, hn.2.2⟩

/-- New contents for `p` and `n`, everything else as before. -/
theorem entry_eq (h : Freeing T s q p r e) (hi : Issued T s s₂ n e) {s₃ : State}
    {p' n' : MemoryMapEntry}
    (he : s₃.entry = Function.update (Function.update s₂.entry p p') n n') :
    s₃.entry p = p' ∧ s₃.entry n = n' ∧ q.map s₃.entry = q.map s.entry ∧
      r.map s₃.entry = r.map s.entry := by
  obtain ⟨h₁, h₂, h₃, h₄, h₅⟩ := h.not_mem hi
  refine ⟨?_, ?_, ?_, ?_⟩
  · rw [he, Function.update_of_ne (Ne.symm h₄), Function.update_self]
  · rw [he, Function.update_self]
  · rw [he, map_update h₃, map_update h₁, hi.entry, map_update h₃]
  · rw [he, map_update h₅, map_update h₂, hi.entry, map_update h₅]

theorem type_eq (h : Freeing T s q p r e) :
    higherPrecedence s.overlapPrecedence (s.entry p).type e.type = .conventionalMemory := by
  rw [h.table, h.conventional]
  exact higherPrecedence_free h.held h.usable

theorem front_none (h : Freeing T s q p r e) (x : ℕ) (hx : e.physicalStart ≤ x) :
    typeAt (q.map s.entry) x = none :=
  typeAt_front h.tidy.2.2.2.1 (h.lower.trans hx)

/-- The whole entry is freed: it is retyped and the new node goes back. -/
theorem whole (h : Freeing T s q p r e) (hi : Issued T s s₂ n e)
    (hstart : (s.entry p).physicalStart = e.physicalStart) (hsize : (s.entry p).size = e.size) :
    Freed T s (mergeAdjacent (mmapFreeEntry
      (s₂.setEntry p { s.entry p with type := .conventionalMemory }) n) p)
      e.physicalStart e.size := by
  obtain ⟨free₂, ho₂⟩ := hi.owned
  obtain ⟨hq, hg, hr, hb₁, hb₂, -⟩ := h.tidy
  obtain ⟨mq, mr, -, -⟩ := h.maximal'
  generalize hp' : ({ s.entry p with type := .conventionalMemory } : MemoryMapEntry) = p'
  have p₁ : p'.physicalStart = (s.entry p).physicalStart := hp' ▸ rfl
  have p₂ : p'.size = (s.entry p).size := hp' ▸ rfl
  have p₃ : p'.type = .conventionalMemory := hp' ▸ rfl
  have hgp : Good p' := hp' ▸ ⟨hg.startAligned, hg.sizeAligned, hg.nonempty, hg.fits⟩
  generalize hs₃ : mmapFreeEntry (s₂.setEntry p p') n = s₃
  have he : s₃.entry = Function.update (Function.update s₂.entry p p') n e := by
    rw [← hs₃]
    funext m
    by_cases hm : m = n
    · subst hm
      rw [Function.update_self]
      exact (Function.update_of_ne (h.not_mem hi).2.2.2.1 _ _).trans hi.entry_self
    · rw [Function.update_of_ne hm]
      rfl
  obtain ⟨ep, -, eq, er⟩ := h.entry_eq hi he
  have htree : s₃.tree = q ++ p :: r := by rw [← hs₃, ← h.tree]; exact hi.tree
  have hnew : s₃.entries = q.map s.entry ++ ([p'] ++ r.map s.entry) := by
    rw [State.entries, htree, List.map_append, List.map_cons, ep, eq, er]
    rfl
  have htidy : Tidy s₃.entries := by
    rw [hnew]
    refine tidy_replace (h.entries ▸ h.wellFormed.tidy)
      (tidy_cons.mpr ⟨hgp, by simp, tidy_nil⟩) ?_ ?_
    · intro a ha b hb
      obtain rfl := List.mem_singleton.mp hb
      have := hb₁ a ha
      unfold Before at *
      omega
    · intro b hb c hc
      obtain rfl := List.mem_singleton.mp hb
      have := hb₂ c hc
      unfold Before at *
      omega
  have hown : Owned T s₃ [] (n :: free₂) := by
    rw [← hs₃]
    exact (ho₂.setEntry p p').freed
  refine .of_merge h.wellFormed.complete hown (by rw [← hs₃]; exact hi.table) htree h.entries hnew
    htidy (eq ▸ mq) (er ▸ mr) h.front_none ?_
  intro x
  rw [typeAt_cons, typeAt_cons, typeAt_nil, p₁, p₂, p₃, hstart, hsize]
  split_ifs <;> rfl

/-- The first pages are freed: the new node takes them. -/
theorem first (h : Freeing T s q p r e) (hi : Issued T s s₂ n e)
    (hstart : (s.entry p).physicalStart = e.physicalStart) (hsize : e.size < (s.entry p).size) :
    ∃ u, Freed T s u e.physicalStart e.size ∧
      reinsert n ((s₂.setEntry n { e with type := .conventionalMemory }).setEntry p
        (dropFront (s.entry p) e.size)) (fun u => .returned (mergeAdjacent u n)) = .returned u := by
  obtain ⟨free₂, ho₂⟩ := hi.owned
  obtain ⟨hq, hg, hr, hb₁, hb₂, -⟩ := h.tidy
  obtain ⟨mq, mr, -, mb⟩ := h.maximal'
  have hge := h.good
  have hne := hge.nonempty
  have hfits := hg.fits
  have hn := h.not_mem hi
  generalize hp' : dropFront (s.entry p) e.size = p'
  generalize hc' : ({ e with type := .conventionalMemory } : MemoryMapEntry) = c'
  have p₁ : p'.physicalStart = (s.entry p).physicalStart + e.size :=
    hp' ▸ Word.add_of_lt (by omega)
  have p₂ : p'.size = (s.entry p).size - e.size := hp' ▸ Word.sub_of_le (by omega) hsize.le
  have p₃ : p'.type = (s.entry p).type := hp' ▸ rfl
  have c₁ : c'.physicalStart = e.physicalStart := hc' ▸ rfl
  have c₂ : c'.size = e.size := hc' ▸ rfl
  have c₃ : c'.type = .conventionalMemory := hc' ▸ rfl
  generalize hs' : (s₂.setEntry n c').setEntry p p' = s'
  have he : s'.entry = Function.update (Function.update s₂.entry p p') n c' := by
    rw [← hs']
    exact Function.update_comm hn.2.2.2.1 _ _ _
  obtain ⟨ep, en, eq, er⟩ := h.entry_eq hi he
  have htree : s'.tree = q ++ p :: r := by rw [← hs', ← h.tree]; exact hi.tree
  have hins : rbInsert s' n = (0, s'.link n (q ++ n :: p :: r)) := by
    refine rbInsert_new ho₂.fresh.1 htree ?_ ?_
    · intro m hm
      have h₁ := hb₁ _ (List.mem_map_of_mem hm)
      have h₂ := (hq.good _ (List.mem_map_of_mem hm)).nonempty
      rw [en, List.map_inj_left.mp eq m hm]
      unfold Before at h₁
      omega
    · rw [en]
      refine List.forall_mem_cons.mpr ⟨by rw [ep]; omega, fun m hm => ?_⟩
      have h₁ := hb₂ _ (List.mem_map_of_mem hm)
      rw [List.map_inj_left.mp er m hm]
      unfold Before at h₁
      omega
  have hnew : (s'.link n (q ++ n :: p :: r)).entries =
      q.map s.entry ++ ([c', p'] ++ r.map s.entry) := by
    change (q ++ n :: p :: r).map s'.entry = _
    rw [List.map_append, List.map_cons, List.map_cons, eq, er, en, ep]
    rfl
  have a₁ := hg.startAligned
  have a₂ := hg.sizeAligned
  have a₃ := hge.startAligned
  have a₄ := hge.sizeAligned
  have htidy : Tidy (q.map s.entry ++ ([c', p'] ++ r.map s.entry)) := by
    refine tidy_pair (h.entries ▸ h.wellFormed.tidy) ⟨by omega, by omega, by omega, by omega⟩
      ⟨by omega, by omega, by omega, by omega⟩ (by unfold Before; omega) ?_ ?_
    · intro c hc
      have := hb₁ c hc
      unfold Before at *
      omega
    · intro c hc
      have := hb₂ c hc
      unfold Before at *
      omega
  have hown : Owned T (s'.link n (q ++ n :: p :: r)) [] free₂ := by
    refine Owned.link (s := s') ?_ htree
    rw [← hs']
    exact (ho₂.setEntry _ _).setEntry _ _
  refine ⟨mergeAdjacent (s'.link n (q ++ n :: p :: r)) n, ?_, ?_⟩
  · have htree' : (s'.link n (q ++ n :: p :: r)).tree = q ++ n :: p :: r := rfl
    refine .of_merge h.wellFormed.complete hown (by rw [← hs']; exact hi.table) htree' h.entries
      hnew (hnew ▸ htidy) ?_ ?_ h.front_none ?_
    · change Maximal (q.map s'.entry)
      exact eq ▸ mq
    · change Maximal ((p :: r).map s'.entry)
      rw [List.map_cons, ep, er]
      refine List.pairwise_cons.mpr ⟨?_, mr⟩
      intro c hc ht hend
      refine mb c hc (p₃.symm.trans ht) ?_
      omega
    · intro x
      simp only [typeAt_cons, typeAt_nil, p₁, p₂, p₃, c₁, c₂, c₃, hstart]
      split_ifs <;> first | rfl | omega
  · simp only [reinsert, hins, ne_eq, not_true, if_false]

/-- The state in which the new node is linked behind `p`. -/
structure Linked (T : Target) (s s₃ : State) (q : List Ptr) (p n : Ptr) (r : List Ptr)
    (e : MemoryMapEntry) : Prop where
  owned : ∃ free, Owned T s₃ [] free
  tree : s₃.tree = q ++ p :: n :: r
  table : s₃.overlapPrecedence = s.overlapPrecedence
  entry : ∀ m ∈ q ++ p :: r, s₃.entry m = s.entry m
  self : s₃.entry n = e

/-- The new entry starts inside `p`: linking it, and the calls up to
`fix_overlap` on `p`. -/
theorem linked (h : Freeing T s q p r e) (hi : Issued T s s₂ n e)
    (hstart : (s.entry p).physicalStart < e.physicalStart) (fuel : ℕ) :
    ∃ s₃, Linked T s s₃ q p n r e ∧ s₃.refills = s₂.refills ∧
      place (fixOverlap T (fuel + 1)) e n s₂ = (fixOverlap T (fuel + 1) p s₃).andThen
        fun u => .returned (mergeAdjacent u n) := by
  obtain ⟨hq, hg, hr, hb₁, hb₂, hc⟩ := h.tidy
  have hne := h.good.nonempty
  have hupper := h.upper
  have hbelow : ∀ m ∈ q ++ [p], (s.entry m).physicalStart < e.physicalStart := by
    intro m hm
    rcases List.mem_append.mp hm with hm | hm
    · have h₁ := hb₁ _ (List.mem_map_of_mem hm)
      unfold Before at h₁
      omega
    · obtain rfl := List.mem_singleton.mp hm
      exact hstart
  have hbefore : ∀ m ∈ r, Before e (s.entry m) := by
    intro m hm
    have h₁ := hb₂ _ (List.mem_map_of_mem hm)
    unfold Before at *
    omega
  have habove : ∀ m ∈ r, e.physicalStart < (s.entry m).physicalStart := by
    intro m hm
    have h₁ := hbefore m hm
    unfold Before at h₁
    omega
  obtain ⟨hins, free₃, ho₃⟩ := hi.link
    (by simpa using h.tree : s.tree = [] ++ ((q ++ [p]) ++ r)) (by simpa using hbelow) habove
  generalize hs₃ : s₂.link n ([] ++ ((q ++ [p]) ++ n :: r)) = s₃ at *
  have htree : s₃.tree = q ++ p :: n :: r := by
    rw [← hs₃]
    simp
  have hmem : ∀ m ∈ q ++ p :: r, s₃.entry m = s.entry m := by
    intro m hm
    rw [← hs₃]
    exact hi.entry_of_mem (h.tree ▸ hm)
  have hn : s₃.entry n = e := by
    rw [← hs₃]
    exact hi.entry_self
  have htable : s₃.overlapPrecedence = s.overlapPrecedence := by
    rw [← hs₃]
    exact hi.table
  have hr₃ : ∀ m ∈ r, s₃.entry m = s.entry m := fun m hm => hmem m (by simp [hm])
  have hfix : fixOverlap T (fuel + 1) n s₃ = .returned s₃ := by
    have htree' : s₃.tree = (q ++ [p]) ++ n :: r := by simpa using htree
    refine fixOverlap_apart ⟨htable ▸ h.wellFormed.complete, ⟨free₃, ho₃⟩, htree', hn ▸ h.good,
      ?_, ?_, ?_⟩ ?_ fuel
    · rw [List.map_congr_left hr₃]
      exact hr
    · intro m hm k hk
      rw [hr₃ k hk, hmem m (by simp only [List.mem_append, List.mem_cons] at hm ⊢; tauto)]
      exact (hbelow m hm).trans (habove k hk)
    · intro m hm
      rw [hn, hr₃ m hm]
      exact habove m hm
    · intro m hm
      rw [hn, hr₃ m hm]
      exact hbefore m hm
  refine ⟨s₃, ⟨⟨free₃, ho₃⟩, htree, htable, hmem, hn⟩, by rw [← hs₃]; rfl, ?_⟩
  simp only [place, hins, ne_eq, not_true, if_false, placeNew, hfix, Outcome.andThen,
    rbPrev_append ho₃ htree]

namespace Linked

variable {s₃ : State}

theorem not_mem (h : Linked T s s₃ q p n r e) : p ∉ q ∧ p ≠ n ∧ p ∉ r ∧ n ∉ q ∧ n ∉ r := by
  obtain ⟨free, ho⟩ := h.owned
  obtain ⟨h₁, h₂⟩ := ho.not_mem h.tree
  obtain ⟨h₃, h₄⟩ := ho.not_mem
    (by simpa using h.tree : s₃.tree = (q ++ [p]) ++ n :: r)
  simp only [List.mem_append, List.mem_cons, not_or] at h₂ h₃
  exact ⟨h₁, h₂.1, h₂.2, h₃.1, h₄⟩

/-- `p` cut back to the start of the new entry, and new contents for `n`. -/
theorem cut (h : Linked T s s₃ q p n r e) {s₄ : State} {n' : MemoryMapEntry}
    (he : s₄.entry = Function.update (Function.update s₃.entry n n') p
      (cutFirst (s.entry p) e)) :
    s₄.entry p = cutFirst (s.entry p) e ∧ s₄.entry n = n' ∧ q.map s₄.entry = q.map s.entry ∧
      r.map s₄.entry = r.map s.entry := by
  obtain ⟨h₁, h₂, h₃, h₄, h₅⟩ := h.not_mem
  refine ⟨?_, ?_, ?_, ?_⟩
  · rw [he, Function.update_self]
  · rw [he, Function.update_of_ne (Ne.symm h₂), Function.update_self]
  · rw [he, map_update h₁, map_update h₄]
    exact List.map_congr_left fun m hm => h.entry m (by simp [hm])
  · rw [he, map_update h₃, map_update h₅]
    exact List.map_congr_left fun m hm => h.entry m (by simp [hm])

end Linked

section Inside

variable {s₃ : State}

theorem tree_entries (hl : Linked T s s₃ q p n r e) {s₄ : State} (htree : s₄.tree = s₃.tree) :
    s₄.entries = q.map s₄.entry ++ ([s₄.entry p, s₄.entry n] ++ r.map s₄.entry) := by
  rw [State.entries, htree, hl.tree, List.map_append, List.map_cons, List.map_cons]
  rfl

/-- What stays of `p` in front of the new entry. -/
theorem cut_good (h : Freeing T s q p r e)
    (hstart : (s.entry p).physicalStart < e.physicalStart) : Good (cutFirst (s.entry p) e) :=
  good_cutFirst h.tidy.2.1 h.good hstart

theorem cut_maximal (h : Freeing T s q p r e) :
    Maximal (q.map s.entry ++ [cutFirst (s.entry p) e]) := by
  obtain ⟨mq, -, ma, -⟩ := h.maximal'
  refine List.pairwise_append.mpr ⟨mq, List.pairwise_singleton _ _, ?_⟩
  intro a ha b hb
  obtain rfl := List.mem_singleton.mp hb
  exact ma a ha

theorem cut_tidy (h : Freeing T s q p r e) {c : MemoryMapEntry} (hgc : Good c)
    (hstart : (s.entry p).physicalStart < e.physicalStart)
    (c₁ : c.physicalStart = e.physicalStart) (c₂ : c.size = e.size) :
    Tidy (q.map s.entry ++ ([cutFirst (s.entry p) e, c] ++ r.map s.entry)) := by
  obtain ⟨-, -, -, hb₁, hb₂, -⟩ := h.tidy
  have hupper := h.upper
  refine tidy_pair (h.entries ▸ h.wellFormed.tidy) (h.cut_good hstart) hgc ?_ hb₁ ?_
  · simp only [Before, cutFirst, c₁]
    omega
  · intro b hb
    have := hb₂ b hb
    unfold Before at *
    omega

/-- The last pages are freed: `p` is cut back. -/
theorem last (h : Freeing T s q p r e) (hl : Linked T s s₃ q p n r e)
    (hstart : (s.entry p).physicalStart < e.physicalStart)
    (hend : e.physicalStart + e.size = (s.entry p).physicalStart + (s.entry p).size) (fuel : ℕ) :
    ∃ s₄, fixOverlap T (fuel + 1) p s₃ = .returned s₄ ∧
      Freed T s (mergeAdjacent s₄ n) e.physicalStart e.size := by
  obtain ⟨free, ho⟩ := hl.owned
  obtain ⟨hq, hg, hr, hb₁, hb₂, -⟩ := h.tidy
  obtain ⟨mq, mr, ma, mb⟩ := h.maximal'
  have hge := h.good
  have hne := hge.nonempty
  have hp : s₃.entry p = s.entry p := hl.entry p (by simp)
  generalize hc' : ({ e with type := .conventionalMemory } : MemoryMapEntry) = c'
  have c₁ : c'.physicalStart = e.physicalStart := hc' ▸ rfl
  have c₂ : c'.size = e.size := hc' ▸ rfl
  have c₃ : c'.type = .conventionalMemory := hc' ▸ rfl
  have hgc : Good c' := hc' ▸ ⟨hge.startAligned, hge.sizeAligned, hge.nonempty, hge.fits⟩
  generalize hs₄ : (s₃.setEntry n c').setEntry p (cutFirst (s.entry p) e) = s₄
  have hfix : fixOverlap T (fuel + 1) p s₃ = .returned s₄ := by
    rw [fixOverlap, fixOverlapBody_overlap ho (hl.table ▸ h.wellFormed.complete) hl.tree
      (hp ▸ hg) (hl.self ▸ hge) (by rw [hp, hl.self]; exact hstart)
      (by rw [hp, hl.self]; unfold Before; omega)]
    simp only [hp, hl.self, hl.table, h.type_eq, hc', if_neg (not_lt.mpr hend.ge),
      if_neg (not_lt.mpr hend.le)]
    rw [hs₄]
  have he : s₄.entry = Function.update (Function.update s₃.entry n c') p
      (cutFirst (s.entry p) e) := by
    rw [← hs₄]
    rfl
  obtain ⟨ep, en, eq, er⟩ := hl.cut he
  have htree : s₄.tree = s₃.tree := by rw [← hs₄]; rfl
  have hnew : s₄.entries =
      q.map s.entry ++ ([cutFirst (s.entry p) e, c'] ++ r.map s.entry) := by
    rw [tree_entries hl htree, eq, er, ep, en]
  have htidy := h.cut_tidy hgc hstart c₁ c₂
  have hown : Owned T s₄ [] free := by
    rw [← hs₄]
    exact (ho.setEntry _ _).setEntry _ _
  have htree' : s₄.tree = (q ++ [p]) ++ n :: r := by
    rw [htree, hl.tree]
    simp
  refine ⟨s₄, hfix, .of_merge h.wellFormed.complete hown ?_ htree' h.entries
    hnew (hnew ▸ htidy) ?_ (er ▸ mr) h.front_none ?_⟩
  · rw [← hs₄]
    exact hl.table
  · rw [List.map_append, eq, List.map_cons, ep]
    exact h.cut_maximal
  · intro x
    simp only [typeAt_cons, typeAt_nil, cutFirst, c₁, c₂, c₃]
    split_ifs <;> first | rfl | omega

/-- The tail of `p` was added behind the freed range. -/
structure TailAdded (T : Target) (s₄ u : State) (q : List Ptr) (p n : Ptr) (r : List Ptr)
    (tail : MemoryMapEntry) : Prop where
  tail : ∃ n₂, u.tree = q ++ p :: n :: n₂ :: r ∧ u.entry n₂ = tail
  owned : ∃ free, Owned T u [] free
  table : u.overlapPrecedence = s₄.overlapPrecedence
  entry : ∀ m ∈ q ++ p :: n :: r, u.entry m = s₄.entry m

/-- The freed range is strictly inside `p`: the tail is added again. -/
theorem addTail (h : Freeing T s q p r e) (hl : Linked T s s₃ q p n r e) {s₄ : State}
    {c' : MemoryMapEntry} (hstart : (s.entry p).physicalStart < e.physicalStart)
    (hend : e.physicalStart + e.size < (s.entry p).physicalStart + (s.entry p).size)
    (he : s₄.entry = Function.update (Function.update s₃.entry n c') p (cutFirst (s.entry p) e))
    (htree : s₄.tree = s₃.tree) (hown : ∃ free, Owned T s₄ [] free)
    (htable : s₄.overlapPrecedence = s.overlapPrecedence) (hgc : Good c')
    (c₁ : c'.physicalStart = e.physicalStart) (c₂ : c'.size = e.size)
    (c₃ : c'.type = .conventionalMemory) (fuel : ℕ) :
    Succeeds s₄ (fun u => TailAdded T s₄ u q p n r (tailEntry (s.entry p) e))
      (mmapAddEntry T (fuel + 2) (tailEntry (s.entry p) e) s₄) := by
  obtain ⟨free, ho⟩ := hown
  obtain ⟨hq, hg, hr, hb₁, hb₂, -⟩ := h.tidy
  obtain ⟨mq, mr, ma, mb⟩ := h.maximal'
  have hne := h.good.nonempty
  have hgt : Good (tailEntry (s.entry p) e) := good_tailEntry hg h.good hend
  obtain ⟨ep, en, eq, er⟩ := hl.cut he
  have htidy := h.cut_tidy hgc hstart c₁ c₂
  have htree' : s₄.tree = [] ++ ((q ++ [p, n]) ++ r) := by
    rw [htree, hl.tree]
    simp
  have hmap : ((q ++ [p, n]) ++ r).map s₄.entry =
      q.map s.entry ++ ([cutFirst (s.entry p) e, c'] ++ r.map s.entry) := by
    simp only [List.map_append, List.map_cons, List.map_nil, eq, er, ep, en, List.append_assoc]
  have hadd : AddPre T s₄ [] ((q ++ [p, n]) ++ r) (tailEntry (s.entry p) e) :=
    ⟨htable ▸ h.wellFormed.complete, ⟨free, ho⟩, htree', hgt, hmap ▸ htidy, by simp, .inl rfl⟩
  have hbefore₁ : ∀ m ∈ q ++ [p, n], Before (s₄.entry m) (tailEntry (s.entry p) e) := by
    intro m hm
    rcases List.mem_append.mp hm with hm | hm
    · have h₁ := hb₁ _ (List.mem_map_of_mem hm)
      rw [List.map_inj_left.mp eq m hm]
      simp only [Before, tailEntry] at *
      omega
    · simp only [List.mem_cons, List.not_mem_nil, or_false] at hm
      rcases hm with rfl | rfl
      · rw [ep]
        simp only [Before, cutFirst, tailEntry]
        omega
      · rw [en]
        simp only [Before, tailEntry, c₁, c₂]
        exact le_rfl
  have hbefore₂ : ∀ m ∈ r, Before (tailEntry (s.entry p) e) (s₄.entry m) := by
    intro m hm
    have h₁ := hb₂ _ (List.mem_map_of_mem hm)
    rw [List.map_inj_left.mp er m hm]
    simp only [Before, tailEntry] at *
    omega
  rw [mmapAddEntry_aligned T (fuel + 1) hgt]
  refine insertEntry_endsIn rfl ho (addEntry_monotone T (fuel + 1)).1 ?_ ?_
  · rintro u ⟨ht, ⟨free, hu⟩, htab, hent⟩
    exact ⟨ht, ⟨free, hu.bumpKey⟩, htab, hent⟩
  intro n₂ s₅ hi _
  rw [place_gap hadd hi hbefore₁ hbefore₂ fuel]
  have hlt₁ : ∀ m ∈ [] ++ (q ++ [p, n]),
      (s₄.entry m).physicalStart < (tailEntry (s.entry p) e).physicalStart := by
    intro m hm
    rw [List.nil_append] at hm
    have h₁ := hbefore₁ m hm
    have h₂ := htidy.good (s₄.entry m) (hmap ▸ List.mem_map_of_mem (List.mem_append_left _ hm))
    have h₃ := h₂.nonempty
    unfold Before at h₁
    omega
  have hlt₂ : ∀ m ∈ r, (tailEntry (s.entry p) e).physicalStart < (s₄.entry m).physicalStart := by
    intro m hm
    have h₁ := hbefore₂ m hm
    have h₃ := hgt.nonempty
    unfold Before at h₁
    omega
  obtain ⟨-, free₆, ho₆⟩ := hi.link htree' hlt₁ hlt₂
  simp only [List.nil_append] at ho₆
  have hn₂ : s₅.entry n₂ = tailEntry (s.entry p) e := hi.entry_self
  have hmem : ∀ m ∈ (q ++ [p, n]) ++ r, s₅.entry m = s₄.entry m :=
    fun m hm => hi.entry_of_mem (htree' ▸ hm)
  rw [mergeAdjacent_self ho₆ rfl]
  · refine .returned fun _ => ⟨⟨n₂, by simp, hn₂⟩, ⟨free₆, ho₆⟩, hi.table, ?_⟩
    intro m hm
    exact hmem m (by simpa using hm)
  · -- the freed range has another type
    intro k hk hm
    obtain rfl : n = k := by simpa using hk
    have ht := hm.1
    change (s₅.entry n).type = (s₅.entry n₂).type at ht
    rw [hmem n (by simp), en, hn₂, c₃] at ht
    exact h.held ht.symm
  · -- the entry behind did not touch `p`, or has another type
    intro k hk hm
    have hk' : k ∈ r := List.mem_of_mem_head? hk
    have ht := hm.1
    have hx := hm.2
    change (s₅.entry n₂).type = (s₅.entry k).type at ht
    change (s₅.entry n₂).physicalEnd = (s₅.entry k).physicalStart at hx
    rw [hn₂, hmem k (by simp [hk']), List.map_inj_left.mp er k hk'] at ht hx
    rw [hgt.physicalEnd] at hx
    refine mb _ (List.mem_map_of_mem hk') ht ?_
    rw [← hx]
    simp only [tailEntry]
    omega

theorem inside (h : Freeing T s q p r e) (hl : Linked T s s₃ q p n r e)
    (hstart : (s.entry p).physicalStart < e.physicalStart)
    (hend : e.physicalStart + e.size < (s.entry p).physicalStart + (s.entry p).size) (fuel : ℕ) :
    Succeeds s₃ (fun u => Freed T s (mergeAdjacent u n) e.physicalStart e.size)
      (fixOverlap T (fuel + 3) p s₃) := by
  obtain ⟨free, ho⟩ := hl.owned
  obtain ⟨hq, hg, hr, hb₁, hb₂, -⟩ := h.tidy
  obtain ⟨mq, mr, ma, mb⟩ := h.maximal'
  have hge := h.good
  have hne := hge.nonempty
  have hp : s₃.entry p = s.entry p := hl.entry p (by simp)
  have hrank : ¬ rank s₃.overlapPrecedence (s.entry p).type ≤
      rank s₃.overlapPrecedence e.type := by
    rw [hl.table, h.table, h.conventional]
    exact not_le.mpr (free_rank h.held h.usable)
  generalize hc' : ({ e with attributes := (s.entry p).attributes ||| e.attributes } :
    MemoryMapEntry) = c'
  have c₁ : c'.physicalStart = e.physicalStart := hc' ▸ rfl
  have c₂ : c'.size = e.size := hc' ▸ rfl
  have c₃ : c'.type = .conventionalMemory := hc' ▸ h.conventional
  have hgc : Good c' := hc' ▸ ⟨hge.startAligned, hge.sizeAligned, hge.nonempty, hge.fits⟩
  generalize hs₄ : (s₃.setEntry n c').setEntry p (cutFirst (s.entry p) e) = s₄
  have hfix : fixOverlap T (fuel + 3) p s₃ =
      mmapAddEntry T (fuel + 2) (tailEntry (s.entry p) e) s₄ := by
    rw [fixOverlap, fixOverlapBody_overlap ho (hl.table ▸ h.wellFormed.complete) hl.tree
      (hp ▸ hg) (hl.self ▸ hge) (by rw [hp, hl.self]; exact hstart)
      (by rw [hp, hl.self]; unfold Before; omega)]
    simp only [hp, hl.self, hrank, hc', if_neg (not_lt.mpr hend.le), hend, if_true, if_false]
    rw [hs₄]
  have he : s₄.entry = Function.update (Function.update s₃.entry n c') p
      (cutFirst (s.entry p) e) := by
    rw [← hs₄]
    rfl
  have htree : s₄.tree = s₃.tree := by rw [← hs₄]; rfl
  have hown : Owned T s₄ [] free := by
    rw [← hs₄]
    exact (ho.setEntry _ _).setEntry _ _
  have htable : s₄.overlapPrecedence = s.overlapPrecedence := by
    rw [← hs₄]
    exact hl.table
  obtain ⟨ep, en, eq, er⟩ := hl.cut he
  rw [hfix]
  refine EndsIn.congr ((h.addTail hl hstart hend he htree ⟨free, hown⟩ htable hgc c₁ c₂ c₃
    fuel).mono ?_) (by rw [← hs₄]; rfl)
  rintro u ⟨⟨n₂, hut, hun⟩, ⟨free', hou⟩, htab, hent⟩
  have hgt : Good (tailEntry (s.entry p) e) := good_tailEntry hg h.good hend
  have uq : q.map u.entry = q.map s.entry := by
    rw [← eq]
    exact List.map_congr_left fun m hm => hent m (by simp [hm])
  have ur : r.map u.entry = r.map s.entry := by
    rw [← er]
    exact List.map_congr_left fun m hm => hent m (by simp [hm])
  have up : u.entry p = cutFirst (s.entry p) e := by rw [hent p (by simp), ep]
  have un : u.entry n = c' := by rw [hent n (by simp), en]
  have hnew : u.entries = q.map s.entry ++
      ([cutFirst (s.entry p) e, c', tailEntry (s.entry p) e] ++ r.map s.entry) := by
    rw [State.entries, hut]
    simp only [List.map_append, List.map_cons, uq, ur, up, un, hun]
    rfl
  have htidy : Tidy u.entries := by
    have htwo := h.cut_tidy hgc hstart c₁ c₂
    rw [hnew, ← List.singleton_append, List.append_assoc, ← List.append_assoc]
    refine tidy_pair (M := [c']) (by simpa using htwo) hgc hgt ?_ ?_ ?_
    · simp only [Before, tailEntry, c₁, c₂]
      exact le_rfl
    · intro c hc
      rcases List.mem_append.mp hc with hc | hc
      · have := hb₁ c hc
        unfold Before at *
        omega
      · obtain rfl := List.mem_singleton.mp hc
        simp only [Before, cutFirst, c₁]
        omega
    · intro c hc
      have := hb₂ c hc
      simp only [Before, tailEntry] at *
      omega
  have hut' : u.tree = (q ++ [p]) ++ n :: n₂ :: r := by
    rw [hut]
    simp
  refine .of_merge h.wellFormed.complete hou (htab.trans htable) hut' h.entries hnew htidy
    ?_ ?_ h.front_none ?_
  · rw [List.map_append, uq, List.map_cons, up]
    exact h.cut_maximal
  · rw [List.map_cons, hun, ur]
    refine List.pairwise_cons.mpr ⟨?_, mr⟩
    intro b hb ht hx
    refine mb b hb ht ?_
    rw [← hx]
    simp only [tailEntry]
    omega
  · intro x
    simp only [typeAt_cons, typeAt_nil, cutFirst, tailEntry, c₁, c₂, c₃]
    split_ifs <;> first | rfl | omega

end Inside

/-- Adding conventional memory inside `p` while the table of `gd_free_pages` is
in force. -/
theorem adds (h : Freeing T s q p r e) (fuel : ℕ) :
    Succeeds s (fun u => Freed T s u e.physicalStart e.size) (mmapAddEntry T (fuel + 4) e s) := by
  obtain ⟨free, ho⟩ := h.wellFormed.owned
  obtain ⟨hq, hg, -, hb₁, -, -⟩ := h.tidy
  have hmono := (addEntry_monotone T (fuel + 3)).1
  have hlower := h.lower
  have hupper := h.upper
  rw [mmapAddEntry_aligned T (fuel + 3) h.good]
  refine insertEntry_endsIn rfl ho hmono (fun u hu => hu.bumpKey) ?_
  intro n s₂ hi _
  by_cases hstart : (s.entry p).physicalStart = e.physicalStart
  · have hp : s₂.entry p = s.entry p := hi.entry_of_mem (by simp [h.tree])
    have hp0 : p ≠ 0 := ho.ne_null (by simp [h.tree])
    have hins : rbInsert s₂ n = (p, s₂) := by
      refine rbInsert_old (hi.tree.trans h.tree) ?_ (by rw [hp, hi.entry_self, hstart])
      intro k hk
      have h₁ := hb₁ _ (List.mem_map_of_mem hk)
      have h₂ := (hq.good _ (List.mem_map_of_mem hk)).nonempty
      rw [hi.entry_of_mem (by simp [h.tree, hk]), hi.entry_self]
      unfold Before at h₁
      omega
    simp only [place, hins, ne_eq, hp0, not_false_eq_true, if_true, placeOld, hp, hi.table,
      h.type_eq]
    split_ifs with hsame hlonger
    · exact .returned fun _ => h.whole hi hstart hsame
    · obtain ⟨u, hu, heq⟩ := h.first hi hstart hlonger
      rw [heq]
      exact .returned fun _ => hu
    · omega
  · have hlt : (s.entry p).physicalStart < e.physicalStart := by omega
    obtain ⟨s₃, hl, hrefills, heq⟩ := h.linked hi hlt (fuel + 2)
    rw [heq]
    by_cases hend : e.physicalStart + e.size = (s.entry p).physicalStart + (s.entry p).size
    · obtain ⟨s₄, hfix, hu⟩ := h.last hl hlt hend (fuel + 2)
      rw [hfix]
      exact .returned fun _ => hu
    · refine EndsIn.congr ?_ hrefills
      refine (h.inside hl hlt (by omega) fuel).andThen (hmono p s₃) (merge_monotone n) ?_
      intro u _ hu
      exact .returned fun _ => hu

end Freeing

/-- `gd_free_pages` on a range that lies in one entry. -/
theorem gdFreePages_spec {T : Target} {s : State} {q r : List Ptr} {p : Ptr} {a count : ℕ}
    (hwf : WellFormed T s) (hmax : Maximal s.entries) (htree : s.tree = q ++ p :: r)
    (hcount : 1 ≤ count) (hrep : count * 4096 < 2^T.ptrBits) (haligned : a % 4096 = 0)
    (held : (s.entry p).type ≠ .conventionalMemory)
    (usable : (s.entry p).type ≠ .unusableMemory) (lower : (s.entry p).physicalStart ≤ a)
    (upper : a + 4096 * count ≤ (s.entry p).physicalStart + (s.entry p).size) (fuel : ℕ) :
    Succeeds s (fun u => Freed T s u a (4096 * count)) (gdFreePages T (fuel + 4) a count s) := by
  obtain ⟨free, ho⟩ := hwf.owned
  have hsize : Word.mul T.ptrBits count 4096 = 4096 * count := by
    rw [Word.mul_of_lt hrep, Nat.mul_comm]
  have hg : Good (s.entry p) := hwf.tidy.good _ (List.mem_map_of_mem (by simp [htree]))
  have hfits := hg.fits
  have hgood : Good (freeEntry T a count) := by
    refine ⟨haligned, ?_, ?_, ?_⟩ <;> simp only [freeEntry, hsize] <;> omega
  have hf : Freeing T { s with overlapPrecedence := freeOverlapPrecedence } q p r
      (freeEntry T a count) := by
    refine ⟨⟨freeOverlapPrecedence_complete, ⟨free, ho.chain, ho.nodup, ho.null, ho.total⟩,
      hwf.tidy⟩, rfl, hmax, htree, hgood, rfl, held, usable, lower, ?_⟩
    simp only [freeEntry, hsize]
    exact upper
  refine EndsIn.andThen (Q := fun u => Freed T { s with
    overlapPrecedence := freeOverlapPrecedence } u a (4096 * count)) ?_
    ((addEntry_monotone T (fuel + 4)).2 (freeEntry T a count) { s with
      overlapPrecedence := freeOverlapPrecedence }) (fun u => le_rfl) ?_
  · have hadds := hf.adds fuel
    simp only [freeEntry, hsize] at hadds ⊢
    exact hadds.congr rfl
  · intro u _ hu
    obtain ⟨free', ho'⟩ := hu.wellFormed.owned
    exact .returned fun _ => ⟨⟨hwf.complete, ⟨free', ho'.chain, ho'.nodup, ho'.null, ho'.total⟩,
      hu.wellFormed.tidy⟩, hu.maximal, rfl, hu.now⟩

end Gandr.Mmap

import Gandr.Mmap.PageTypes

/-! Ranges at the top of the address space. The end of an entry is computed in
64 bits, so a range that reaches `2^64` ends below its start: it overlaps
nothing behind it for `fix_overlap`, and can only stay in the map unharmed where
it has the top to itself. -/

namespace Gandr.Mmap

/-- Only pages that `e` touches changed, and the entries are in order and apart. -/
structure Contained (s : State) (e : MemoryMapEntry) (u : State) : Prop where
  outside : ∀ p < 2^52, ¬ Touches e p → pageType u.entries p = pageType s.entries p
  sorted : u.entries.Pairwise fun a b => a.physicalStart < b.physicalStart
  disjoint : u.entries.Pairwise Before

/-- A page-aligned range of 64-bit words that reaches `2^64`. -/
structure ReachesTop (e : MemoryMapEntry) : Prop where
  startAligned : e.physicalStart % 4096 = 0
  sizeAligned : e.size % 4096 = 0
  start_lt : e.physicalStart < 2^64
  size_lt : e.size < 2^64
  reaches : 2^64 ≤ e.physicalStart + e.size

/-- No entry has the start of `e`. -/
def StartsInGap (s : State) (e : MemoryMapEntry) : Prop :=
  ∀ k ∈ s.entries, Before k e ∨ e.physicalStart < k.physicalStart

/-- All entries end before `e`, and one that `e` would extend does not come to
cover `2^64` bytes. -/
def TopFree (s : State) (e : MemoryMapEntry) : Prop :=
  ∀ k ∈ s.entries, Before k e ∧ (k.type = e.type →
    k.physicalStart + k.size = e.physicalStart → e.physicalStart + e.size < k.physicalStart + 2^64)

instance (e : MemoryMapEntry) : Decidable (ReachesTop e) :=
  decidable_of_iff (e.physicalStart % 4096 = 0 ∧ e.size % 4096 = 0 ∧ e.physicalStart < 2^64 ∧
    e.size < 2^64 ∧ 2^64 ≤ e.physicalStart + e.size)
    ⟨fun h => ⟨h.1, h.2.1, h.2.2.1, h.2.2.2.1, h.2.2.2.2⟩,
      fun h => ⟨h.startAligned, h.sizeAligned, h.start_lt, h.size_lt, h.reaches⟩⟩

section Below

variable {T : Target} {s u : State} {e : MemoryMapEntry} {fuel : ℕ}

theorem contained_refl (h : Tidy s.entries) (e : MemoryMapEntry) : Contained s e s :=
  ⟨fun _ _ _ => rfl, List.pairwise_map.mpr h.sorted, h.apart⟩

/-- Adding the pieces of `e` leaves the other pages alone. -/
theorem Gains.contained (h : Gains T s u (pieces e)) (hwf : WellFormed T s) (hfits : Fits e) :
    Contained s e u := by
  refine ⟨?_, List.pairwise_map.mpr h.wellFormed.tidy.sorted, h.wellFormed.tidy.apart⟩
  intro p _ hp
  have hc : claimed e p = none := by
    rw [claimed, if_neg (fun hc => hp hc.touches), if_neg hp]
  have hbest := h.best (4096 * p)
  rw [best_pieces hfits, hc, best_tidy h.wellFormed.tidy, best_tidy hwf.tidy] at hbest
  refine rankOf_inj hwf.complete (hbest.trans (min_eq_right ?_))
  exact rankOf_le _

end Below

section Top

variable {T : Target} {s s₂ : State} {e : MemoryMapEntry} {n : Ptr} {q r : List Ptr} {fuel : ℕ}

/-- The computed end of the range lies below its start. -/
theorem ReachesTop.physicalEnd (h : ReachesTop e) :
    e.physicalEnd = e.physicalStart + e.size - 2^64 ∧ e.physicalEnd < e.physicalStart := by
  have h₁ := h.reaches
  have h₂ := h.start_lt
  have h₃ := h.size_lt
  have heq : e.physicalEnd = e.physicalStart + e.size - 2^64 := by
    unfold MemoryMapEntry.physicalEnd Word.add
    omega
  exact ⟨heq, by omega⟩

/-- The entries on both sides of a start in a gap. -/
theorem StartsInGap.split (h : StartsInGap s e) (ht : Tidy s.entries) :
    ∃ q r, s.tree = q ++ r ∧ (∀ m ∈ q, Before (s.entry m) e) ∧
      ∀ m ∈ r, e.physicalStart < (s.entry m).physicalStart := by
  have hgood : ∀ m ∈ s.tree, Good (s.entry m) := fun m hm => ht.good _ (List.mem_map_of_mem hm)
  have hside : ∀ m ∈ s.tree, Before (s.entry m) e ∨ e.physicalStart < (s.entry m).physicalStart :=
    fun m hm => h _ (List.mem_map_of_mem hm)
  rcases Links.split_at_key ht.sorted e.physicalStart with
    ⟨q, m, r, heq, hkey, -, -⟩ | ⟨q, r, heq, hq, hr⟩
  · have hm : m ∈ s.tree := by simp [heq]
    have hne := (hgood m hm).nonempty
    rcases hside m hm with hb | hlt
    · unfold Before at hb
      omega
    · omega
  · refine ⟨q, r, heq, ?_, hr⟩
    intro m hm
    have hlt := hq m hm
    exact (hside m (by simp [heq, hm])).resolve_right (by omega)

/-- Neither the new entry nor the one in front of it is found to overlap. -/
theorem place_top (hwf : WellFormed T s) (htop : ReachesTop e) (hi : Issued T s s₂ n e)
    (htree : s.tree = q ++ r) (hq : ∀ m ∈ q, Before (s.entry m) e)
    (hr : ∀ m ∈ r, e.physicalStart < (s.entry m).physicalStart) (fuel : ℕ) :
    place (fixOverlap T (fuel + 1)) e n s₂ =
      .returned (mergeAdjacent (s₂.link n (q ++ n :: r)) n) := by
  have hgood : ∀ m ∈ s.tree, Good (s.entry m) :=
    fun m hm => hwf.tidy.good _ (List.mem_map_of_mem hm)
  have hbelow : ∀ m ∈ [] ++ q, (s.entry m).physicalStart < e.physicalStart := by
    intro m hm
    have hb := hq m hm
    have hne := (hgood m (by simpa [htree] using Or.inl hm)).nonempty
    unfold Before at hb
    omega
  obtain ⟨hins, free, ho⟩ := hi.link (by simpa using htree : s.tree = [] ++ (q ++ r)) hbelow hr
  rw [List.nil_append] at hins ho
  have hentry : ∀ m ∈ s.tree, (s₂.link n (q ++ n :: r)).entry m = s.entry m :=
    fun m hm => hi.entry_of_mem hm
  have hself : (s₂.link n (q ++ n :: r)).entry n = e := hi.entry_self
  generalize hs₃ : s₂.link n (q ++ n :: r) = s₃ at *
  have htree₃ : s₃.tree = q ++ n :: r := by rw [← hs₃, State.link_tree]
  have hnew : fixOverlap T (fuel + 1) n s₃ = .returned s₃ := by
    rw [fixOverlap]
    cases r with
    | nil => exact fixOverlapBody_last ho htree₃
    | cons k r =>
      refine fixOverlapBody_ended ho htree₃ ?_
      have hk := hr k List.mem_cons_self
      have hend := htop.physicalEnd.2
      rw [hself, hentry k (by simp [htree])]
      omega
  have hprev : fixOverlap T (fuel + 1) (rbPrev s₃ n) s₃ = .returned s₃ := by
    rcases List.eq_nil_or_concat q with rfl | ⟨l, p, rfl⟩
    · rw [rbPrev_head ho htree₃]
      exact fixOverlap_null T fuel s₃
    · rw [List.concat_eq_append] at *
      have htree' : s₃.tree = l ++ p :: n :: r := by simpa using htree₃
      have hp : p ∈ s.tree := by simp [htree]
      rw [rbPrev_append ho htree', fixOverlap]
      refine fixOverlapBody_apart ho htree' ?_ ?_
      · rw [hentry p hp]
        exact hgood p hp
      · rw [hself, hentry p hp]
        exact hq p (by simp)
  simp only [place, hins, placeNew, hnew, hprev, Outcome.andThen, ne_eq, not_true, if_false]

/-- The range stands on its own behind `q`, or extends the last entry of `q`. -/
theorem merge_top (hwf : WellFormed T s) (htop : ReachesTop e) (hi : Issued T s s₂ n e)
    (htree : s.tree = q ++ r) (hq : ∀ m ∈ q, Before (s.entry m) e)
    (hr : ∀ m ∈ r, e.physicalStart < (s.entry m).physicalStart) :
    (mergeAdjacent (s₂.link n (q ++ n :: r)) n).entries = q.map s.entry ++ e :: r.map s.entry ∧
        (∀ q' p, q = q' ++ [p] → Separate (s.entry p) e) ∨
    ∃ q' p, q = q' ++ [p] ∧ (s.entry p).type = e.type ∧
      (s.entry p).physicalStart + (s.entry p).size = e.physicalStart ∧
      (mergeAdjacent (s₂.link n (q ++ n :: r)) n).entries = q'.map s.entry ++
        { s.entry p with size := Word.add 64 (s.entry p).size e.size } :: r.map s.entry := by
  have hgood : ∀ m ∈ s.tree, Good (s.entry m) :=
    fun m hm => hwf.tidy.good _ (List.mem_map_of_mem hm)
  have hmem : ∀ m ∈ q ++ r, m ∈ s.tree := fun m hm => htree ▸ hm
  have hbelow : ∀ m ∈ [] ++ q, (s.entry m).physicalStart < e.physicalStart := by
    intro m hm
    have hb := hq m hm
    have hne := (hgood m (hmem m (List.mem_append_left _ hm))).nonempty
    unfold Before at hb
    omega
  obtain ⟨-, free, ho⟩ := hi.link (by simpa using htree : s.tree = [] ++ (q ++ r)) hbelow hr
  rw [List.nil_append] at ho
  have hentry : ∀ m ∈ s.tree, (s₂.link n (q ++ n :: r)).entry m = s.entry m :=
    fun m hm => hi.entry_of_mem hm
  have hself : (s₂.link n (q ++ n :: r)).entry n = e := hi.entry_self
  generalize hs₃ : s₂.link n (q ++ n :: r) = s₃ at *
  have htree₃ : s₃.tree = q ++ n :: r := by rw [← hs₃, State.link_tree]
  have hqr : q.map s₃.entry = q.map s.entry ∧ r.map s₃.entry = r.map s.entry :=
    ⟨List.map_congr_left fun m hm => hentry m (hmem m (List.mem_append_left _ hm)),
      List.map_congr_left fun m hm => hentry m (hmem m (List.mem_append_right _ hm))⟩
  -- a range that ends below its start touches nothing behind it
  have hnext : ∀ (t : State) (mid : Ptr), (t.entry mid).physicalEnd = e.physicalEnd →
      (∀ m ∈ r, t.entry m = s.entry m) → mergeNext t mid (r.headD 0) = t := by
    intro t mid hend hkeep
    refine if_neg ?_
    rintro ⟨hne, -, htouch⟩
    cases r with
    | nil => exact hne rfl
    | cons k r =>
      have hk := hr k List.mem_cons_self
      have hlt := htop.physicalEnd.2
      rw [List.headD_cons, hend, hkeep k List.mem_cons_self] at htouch
      omega
  rcases mergeAdjacent_cases ho htree₃ with ⟨q', p, rfl, hm, heq⟩ | ⟨hsep, heq⟩
  · refine .inr ⟨q', p, rfl, ?_⟩
    have hp : p ∈ s.tree := hmem p (by simp)
    have htree' : s₃.tree = [] ++ (q' ++ p :: n :: r) := by simpa using htree₃
    have habsorb := absorb_map ho htree'
    have hgrown : grown s₃ p n =
        { s.entry p with size := Word.add 64 (s.entry p).size e.size } := by
      rw [grown, hentry p hp, hself]
    obtain ⟨htype, htouch⟩ := hm
    rw [hentry p hp, hself] at htype htouch
    rw [(hgood p hp).physicalEnd] at htouch
    refine ⟨htype, htouch, ?_⟩
    obtain ⟨hpn, hpr⟩ := ho.not_mem (by simpa using htree₃ : s₃.tree = q' ++ p :: n :: r)
    have hent : (absorb s₃ p n).entry = Function.update s₃.entry p (grown s₃ p n) := by
      rw [absorb_eq ho (by simpa using htree')]
      rfl
    rw [heq, hnext]
    · have htreeA : (absorb s₃ p n).tree = q' ++ p :: r := by
        rw [absorb_eq ho (by simpa using htree')]
        rfl
      rw [State.entries, htreeA, habsorb, hgrown, hqr.2]
      congr 1
      exact List.map_congr_left fun m hm' => hentry m (hmem m (by simp [hm']))
    · rw [hent, Function.update_self, hgrown]
      have := htop.physicalEnd.1
      simp only [MemoryMapEntry.physicalEnd, Word.add] at this ⊢
      omega
    · intro m hm'
      rw [hent, update_of_mem (fun h => hpr (List.mem_cons_of_mem _ h)) hm']
      exact hentry m (hmem m (List.mem_append_right _ hm'))
  · refine .inl ⟨?_, ?_⟩
    · rw [heq, hnext s₃ n (by rw [hself]) fun m hm' => hentry m (hmem m (List.mem_append_right _ hm'))]
      rw [State.entries, htree₃, List.map_append, List.map_cons, hqr.1, hqr.2, hself]
    · intro q' p hqp htype htouch
      have hp : p ∈ s.tree := hmem p (by simp [hqp])
      refine hsep q' p hqp ⟨?_, ?_⟩
      · rw [hentry p hp, hself, htype]
      · rw [hentry p hp, hself, (hgood p hp).physicalEnd, htouch]

theorem not_contains {p : ℕ} (h : ¬ Touches e p) :
    ¬ (e.physicalStart ≤ 4096 * p ∧ 4096 * p < e.physicalStart + e.size) := by
  unfold Touches at h
  omega

/-- The entries in front and the range itself, in order. -/
theorem pairwise_top {es : List MemoryMapEntry} (h : Tidy es) (hb : ∀ k ∈ es, Before k e) :
    (es ++ [e]).Pairwise (fun a b => a.physicalStart < b.physicalStart) ∧
      (es ++ [e]).Pairwise Before := by
  have hstart : ∀ k ∈ es, k.physicalStart < e.physicalStart := by
    intro k hk
    have hne := (h.good k hk).nonempty
    have := hb k hk
    unfold Before at this
    omega
  have hsorted : es.Pairwise fun a b => a.physicalStart < b.physicalStart := by
    refine h.apart.imp_of_mem ?_
    intro a b ha _ hab
    have hne := (h.good a ha).nonempty
    unfold Before at hab
    omega
  exact ⟨List.pairwise_append.mpr ⟨hsorted, List.pairwise_singleton _ _, by simpa using hstart⟩,
    List.pairwise_append.mpr ⟨h.apart, List.pairwise_singleton _ _, by simpa using hb⟩⟩

theorem TopFree.contained {u : State} (h : TopFree s e) (hwf : WellFormed T s)
    (htree : s.tree = q ++ r) (hr : ∀ m ∈ r, e.physicalStart < (s.entry m).physicalStart)
    (hu : u.entries = q.map s.entry ++ e :: r.map s.entry ∨
      ∃ q' p, q = q' ++ [p] ∧ (s.entry p).type = e.type ∧
        (s.entry p).physicalStart + (s.entry p).size = e.physicalStart ∧
        u.entries = q'.map s.entry ++
          { s.entry p with size := Word.add 64 (s.entry p).size e.size } :: r.map s.entry) :
    Contained s e u := by
  have hnil : r = [] := by
    rw [List.eq_nil_iff_forall_not_mem]
    intro m hm
    have hb := (h _ (List.mem_map_of_mem (by simp [htree, hm] : m ∈ s.tree))).1
    have := hr m hm
    unfold Before at hb
    omega
  subst hnil
  rw [List.append_nil] at htree
  have hs : s.entries = q.map s.entry := by rw [State.entries, htree]
  have htidy := hwf.tidy
  rw [hs] at htidy
  rcases hu with hu | ⟨q', p, rfl, htype, htouch, hu⟩
  · rw [List.map_nil] at hu
    obtain ⟨h₁, h₂⟩ := pairwise_top htidy fun k hk => (h k (hs ▸ hk)).1
    refine ⟨?_, hu ▸ h₁, hu ▸ h₂⟩
    intro x _ hx
    rw [pageType, pageType, hu, hs, typeAt_append, typeAt_cons, if_neg (not_contains hx), typeAt_nil,
      Option.or_none]
  · rw [List.map_append, List.map_singleton] at hs htidy
    have hroom := (h _ (hs ▸ by simp : s.entry p ∈ s.entries)).2 htype htouch
    have hsize : Word.add 64 (s.entry p).size e.size = (s.entry p).size + e.size :=
      Word.add_of_lt (by omega)
    rw [hsize, List.map_nil] at hu
    obtain ⟨t₁, -, hc⟩ := tidy_append.mp htidy
    obtain ⟨h₁, h₂⟩ := pairwise_top (e := { s.entry p with size := (s.entry p).size + e.size }) t₁
      fun k hk => hc k hk (s.entry p) (List.mem_singleton_self _)
    refine ⟨?_, hu ▸ h₁, hu ▸ h₂⟩
    intro x _ hx
    have hnot := not_contains hx
    rw [pageType, pageType, hu, hs, typeAt_append, typeAt_append, typeAt_cons, typeAt_cons]
    congr 2
    rw [eq_iff_iff]
    constructor
    · rintro ⟨h₁, h₂⟩
      exact ⟨h₁, by dsimp only at h₂; omega⟩
    · rintro ⟨h₁, h₂⟩
      exact ⟨h₁, by dsimp only; omega⟩

/-- An entry that comes to cover `2^64` bytes loses its last page. -/
theorem lost_page {u : State} {q' : List Ptr} {p : Ptr} (hwf : WellFormed T s)
    (htop : ReachesTop e) (htree : s.tree = (q' ++ [p]) ++ r)
    (hr : ∀ m ∈ r, e.physicalStart < (s.entry m).physicalStart)
    (htouch : (s.entry p).physicalStart + (s.entry p).size = e.physicalStart)
    (hover : 2^64 ≤ (s.entry p).size + e.size)
    (hu : u.entries = q'.map s.entry ++
      { s.entry p with size := Word.add 64 (s.entry p).size e.size } :: r.map s.entry) :
    ¬ Contained s e u := by
  intro hc
  have hentries : s.entries = q'.map s.entry ++ s.entry p :: r.map s.entry := by
    rw [State.entries, htree]
    simp
  have htidy := hwf.tidy
  have hmem : s.entry p ∈ s.entries := by simp [hentries]
  have hg := htidy.good _ hmem
  obtain ⟨g₁, g₂, g₃, g₄⟩ := hg
  have hs := htop.size_lt
  have ha := htop.sizeAligned
  have hsa := htop.startAligned
  have hst := htop.start_lt
  have hsize : Word.add 64 (s.entry p).size e.size = (s.entry p).size + e.size - 2^64 := by
    unfold Word.add
    omega
  obtain ⟨k, hk⟩ : ∃ k, e.physicalStart = 4096 * k + 4096 := ⟨e.physicalStart / 4096 - 1, by omega⟩
  have hwas : typeAt s.entries (4096 * k) = some (s.entry p).type :=
    typeAt_of_mem htidy hmem (by omega) (by omega)
  have hnow : typeAt u.entries (4096 * k) = none := by
    rw [hentries, tidy_append] at htidy
    obtain ⟨-, -, hb⟩ := htidy
    refine typeAt_none ?_
    rw [hu]
    intro m hm
    rcases List.mem_append.mp hm with hm | hm
    · have := hb m hm _ List.mem_cons_self
      unfold Before at this
      omega
    · rcases List.mem_cons.mp hm with rfl | hm
      · rw [hsize]
        dsimp only
        omega
      · obtain ⟨j, hj, rfl⟩ := List.mem_map.mp hm
        have := hr j hj
        omega
  have hsame := hc.outside k (by omega) (by unfold Touches; omega)
  rw [pageType, pageType, hwas, hnow] at hsame
  cases hsame

/-- What is contained has the top to itself. -/
theorem Contained.topFree {u : State} (h : Contained s e u) (hwf : WellFormed T s)
    (htop : ReachesTop e) (htree : s.tree = q ++ r) (hq : ∀ m ∈ q, Before (s.entry m) e)
    (hr : ∀ m ∈ r, e.physicalStart < (s.entry m).physicalStart)
    (hu : u.entries = q.map s.entry ++ e :: r.map s.entry ∧
        (∀ q' p, q = q' ++ [p] → Separate (s.entry p) e) ∨
      ∃ q' p, q = q' ++ [p] ∧ (s.entry p).type = e.type ∧
        (s.entry p).physicalStart + (s.entry p).size = e.physicalStart ∧
        u.entries = q'.map s.entry ++
          { s.entry p with size := Word.add 64 (s.entry p).size e.size } :: r.map s.entry) :
    TopFree s e := by
  have hgood : ∀ m ∈ s.tree, Good (s.entry m) :=
    fun m hm => hwf.tidy.good _ (List.mem_map_of_mem hm)
  have hlast := htop.reaches
  have hnil : ∀ x ∈ r.map s.entry, False := by
    intro x hx
    obtain ⟨m, hm, rfl⟩ := List.mem_map.mp hx
    have hfits := (hgood m (by simp [htree, hm])).fits
    have hd := h.disjoint
    rcases hu with ⟨hu, -⟩ | ⟨q', p, rfl, -, htouch, hu⟩
    · rw [hu] at hd
      have hb := (List.pairwise_cons.mp (List.pairwise_append.mp hd).2.1).1 _ hx
      unfold Before at hb
      omega
    · by_cases hover : 2^64 ≤ (s.entry p).size + e.size
      · exact lost_page hwf htop htree hr htouch hover hu h
      · have hsize : Word.add 64 (s.entry p).size e.size = (s.entry p).size + e.size :=
          Word.add_of_lt (by omega)
        rw [hu, hsize] at hd
        have hb := (List.pairwise_cons.mp (List.pairwise_append.mp hd).2.1).1 _ hx
        unfold Before at hb
        dsimp only at hb
        omega
  intro k hk
  obtain ⟨m, hm, rfl⟩ := List.mem_map.mp hk
  have hmq : m ∈ q := by
    rw [htree] at hm
    exact (List.mem_append.mp hm).resolve_right fun hmr => hnil _ (List.mem_map_of_mem hmr)
  refine ⟨hq m hmq, ?_⟩
  intro htype htouch
  -- the entry that touches the range is the last one in front of it
  obtain ⟨q', p, rfl⟩ : ∃ q' p, q = q' ++ [p] := by
    rcases List.eq_nil_or_concat q with rfl | ⟨q', p, hcat⟩
    · simp at hmq
    · exact ⟨q', p, by simpa using hcat⟩
  obtain rfl : m = p := by
    rcases List.mem_append.mp hmq with hm' | hm'
    · have ht := hwf.tidy
      rw [State.entries, htree, List.map_append, List.map_append, tidy_append, tidy_append] at ht
      have hb := ht.1.2.2 _ (List.mem_map_of_mem hm') (s.entry p) (by simp)
      have hne := (hgood p (by simp [htree])).nonempty
      have hpb := hq p (by simp)
      unfold Before at hb hpb
      omega
    · exact List.mem_singleton.mp hm'
  rcases hu with ⟨-, hsep⟩ | ⟨q'', p', hqq, -, -, hu⟩
  · exact absurd htouch (hsep q' m rfl htype)
  · obtain ⟨rfl, hp⟩ := List.append_inj' hqq rfl
    obtain rfl := List.singleton_inj.mp hp
    by_contra hover
    exact lost_page hwf htop htree hr htouch (by omega) hu h

end Top

/-- The condition under which an entry stays in its bounds: it is empty, or all
its pieces end below `2^64` and clobber nothing, or it has the top to itself. -/
def StaysInBounds (T : Target) (fuel : ℕ) (s : State) (e : MemoryMapEntry) : Prop :=
  e.size = 0 ∨ (Fits e ∧ SafePieces T fuel (pieces e) s) ∨ (ReachesTop e ∧ TopFree s e)

section Bounds

variable {T : Target} {s : State} {e : MemoryMapEntry} {fuel : ℕ}

theorem Contained.bumpKey {u : State} (h : Contained s e u) : Contained s e u.bumpKey :=
  ⟨h.outside, h.sorted, h.disjoint⟩

theorem TopFree.startsInGap (h : TopFree s e) : StartsInGap s e := fun k hk => .inl (h k hk).1

theorem ReachesTop.insert (h : ReachesTop e) (T : Target) (fuel : ℕ) (s : State) :
    mmapAddEntry T (fuel + 1) e s = insertEntry T (fixOverlap T fuel) e s := by
  have h₁ := h.start_lt
  have h₂ := h.reaches
  exact mmapAddEntry_whole T fuel h.startAligned h.sizeAligned (by omega) s

theorem mmapAddEntry_topFree (hwf : WellFormed T s) (htop : ReachesTop e) (hfree : TopFree s e)
    (fuel : ℕ) : Ensures s (Contained s e) (mmapAddEntry T (fuel + 2) e s) := by
  obtain ⟨free, ho⟩ := hwf.owned
  obtain ⟨q, r, htree, hq, hr⟩ := hfree.startsInGap.split hwf.tidy
  rw [htop.insert T (fuel + 1) s]
  refine insertEntry_endsIn trivial ho (addEntry_monotone T (fuel + 1)).1 (fun t => .bumpKey) ?_
  intro n s₂ hi _
  rw [place_top hwf htop hi htree hq hr fuel]
  refine .returned fun _ => hfree.contained hwf htree hr ?_
  rcases merge_top hwf htop hi htree hq hr with ⟨h, -⟩ | h
  · exact .inl h
  · exact .inr h

theorem topFree_of_ensures (hwf : WellFormed T s) (htop : ReachesTop e) (hgap : StartsInGap s e)
    (hpool : PoolReady s) (h : Ensures s (Contained s e) (mmapAddEntry T (fuel + 2) e s)) :
    TopFree s e := by
  obtain ⟨free, ho⟩ := hwf.owned
  obtain ⟨q, r, htree, hq, hr⟩ := hgap.split hwf.tidy
  obtain ⟨n, s₂, hi, -, heq⟩ := insertEntry_pool (e := e) ho hpool
  rw [htop.insert T (fuel + 1) s, heq, place_top hwf htop hi htree hq hr fuel] at h
  have hpages : (mergeAdjacent (s₂.link n (q ++ n :: r)) n).bumpKey.refills = s.refills := by
    rw [refills_bumpKey, refills_mergeAdjacent]
    exact congrArg List.length hi.pages
  cases h with
  | returned h =>
    have hc := h hpages
    exact (Contained.mk hc.outside hc.sorted hc.disjoint :
      Contained s e (mergeAdjacent (s₂.link n (q ++ n :: r)) n)).topFree hwf htop htree hq hr
        (merge_top hwf htop hi htree hq hr)

end Bounds

/-- The last two pages of the address space. -/
def lastPages : MemoryMapEntry :=
  { type := .mmio, physicalStart := 2^64 - 0x2000, size := 0x2000 }

/-- A range that starts in the last page and does not end there. -/
def pastTheEnd : MemoryMapEntry :=
  { type := .unusableMemory, physicalStart := 2^64 - 0x800, size := 0x1800 }

end Gandr.Mmap

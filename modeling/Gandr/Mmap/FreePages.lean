import Gandr.Mmap.PageTypes

/-! The effect of `gd_free_pages` on every page. The range is added as
conventional memory under a table that lets it win over all but unusable memory,
and so it also appears where the map had nothing. -/

namespace Gandr.Mmap

/-- The page `p` lies in the range that is freed. -/
def InRange (start count p : ℕ) : Prop := start ≤ 4096 * p ∧ 4096 * p < start + 4096 * count

/-- What freeing a range should do to the map. -/
structure Frees (s u : State) (start count : ℕ) : Prop where
  outside : ∀ p, ¬ InRange start count p → pageType u.entries p = pageType s.entries p
  unusable : ∀ p, InRange start count p → pageType s.entries p = some .unusableMemory →
    pageType u.entries p = some .unusableMemory
  freed : ∀ p t, InRange start count p → pageType s.entries p = some t → t ≠ .unusableMemory →
    pageType u.entries p = some .conventionalMemory
  absent : ∀ p, InRange start count p → pageType s.entries p = none →
    pageType u.entries p = none
  table : u.overlapPrecedence = s.overlapPrecedence

/-- The map has every page of the range as far as `size_t` counts its bytes, and
nothing to free behind that. -/
def Freeable (T : Target) (s : State) (start count : ℕ) : Prop :=
  ∀ p, InRange start count p →
    if 4096 * p < start + count * 4096 % 2^T.ptrBits then pageType s.entries p ≠ none
    else ∀ t, pageType s.entries p = some t → t = .unusableMemory ∨ t = .conventionalMemory

/-- The state in which `gd_free_pages` calls `mmap_add_entry`. -/
def freeing (s : State) : State := { s with overlapPrecedence := freeOverlapPrecedence }

theorem higherPrecedence_conventional (t : MemoryType) :
    higherPrecedence freeOverlapPrecedence .conventionalMemory t =
      if t = .unusableMemory then .unusableMemory else .conventionalMemory := by
  cases t <;> decide

section Effect

variable {T : Target} {s u : State} {start count : ℕ}

theorem freeEntry_fits (hfits : start + 4096 * count < 2^64) (haligned : start % 4096 = 0) :
    Fits (freeEntry T start count) := by
  have hle : count * 4096 % 2^T.ptrBits ≤ count * 4096 := Nat.mod_le _ _
  change start + count * 4096 % 2^T.ptrBits ≤ 2^64 - 4096
  omega

/-- A page-aligned entry has one piece at most. -/
theorem pieces_aligned {e : MemoryMapEntry} (h₁ : e.physicalStart % 4096 = 0)
    (h₂ : e.size % 4096 = 0) : pieces e = if e.size = 0 then [] else [e] := by
  simp [pieces, trimFront, trimBack, h₁, h₂]

theorem freeEntry_aligned (T : Target) (start count : ℕ) :
    (freeEntry T start count).size % 4096 = 0 := by
  have hbits : 12 ≤ T.ptrBits := by
    by_contra hlt
    have hpow : 2^T.ptrBits ≤ 2^12 := Nat.pow_le_pow_right (by decide) (by omega)
    have := T.page_lt
    omega
  have hdvd : 4096 ∣ 2^T.ptrBits := pow_dvd_pow 2 hbits
  change count * 4096 % 2^T.ptrBits % 4096 = 0
  rw [Nat.mod_mod_of_dvd _ hdvd]
  exact Nat.mul_mod_left count 4096

/-- What the range claims for a page. -/
theorem claimed_freeEntry (haligned : start % 4096 = 0) (p : ℕ) :
    claimed (freeEntry T start count) p =
      if start ≤ 4096 * p ∧ 4096 * p < start + count * 4096 % 2^T.ptrBits
      then some .conventionalMemory else none := by
  have hsize := freeEntry_aligned T start count
  change count * 4096 % 2^T.ptrBits % 4096 = 0 at hsize
  have hcovers : Covers (freeEntry T start count) p ↔
      start ≤ 4096 * p ∧ 4096 * p < start + count * 4096 % 2^T.ptrBits := by
    change start ≤ 4096 * p ∧ 4096 * p + 4096 ≤ start + count * 4096 % 2^T.ptrBits ↔ _
    omega
  have htouches : Touches (freeEntry T start count) p → Covers (freeEntry T start count) p := by
    rintro ⟨-, h₁, h₂⟩
    change start < 4096 * p + 4096 at h₁
    change 4096 * p < start + count * 4096 % 2^T.ptrBits at h₂
    exact hcovers.mpr ⟨by omega, h₂⟩
  rw [claimed]
  by_cases hc : Covers (freeEntry T start count) p
  · rw [if_pos hc, if_pos (hcovers.mp hc)]
    rfl
  · rw [if_neg hc, if_neg (mt htouches hc), if_neg (mt hcovers.mpr hc)]

/-- Every page gets the stronger of its old type and what the range claims. -/
theorem freed_pageType {e : MemoryMapEntry} (h : Gains T (freeing s) u (pieces e)) (he : Fits e)
    (hs : Tidy s.entries) (p : ℕ) : pageType u.entries p =
      stronger freeOverlapPrecedence (claimed e p) (pageType s.entries p) := by
  refine rankOf_inj freeOverlapPrecedence_complete ?_
  rw [rankOf_stronger freeOverlapPrecedence_complete, pageType, pageType,
    ← best_tidy h.wellFormed.tidy, ← best_tidy hs, ← best_pieces he]
  exact h.best (4096 * p)

theorem stronger_conventional (t : Option MemoryType) :
    stronger freeOverlapPrecedence (some .conventionalMemory) t =
      if t = some .unusableMemory then some .unusableMemory else some .conventionalMemory := by
  cases t with
  | none => rfl
  | some t =>
    rw [stronger, higherPrecedence_conventional]
    split_ifs <;> simp_all

/-- The types of the pages after the call. -/
theorem frees_iff (haligned : start % 4096 = 0) (htable : u.overlapPrecedence = s.overlapPrecedence)
    (hpage : ∀ p, pageType u.entries p = stronger freeOverlapPrecedence
      (claimed (freeEntry T start count) p) (pageType s.entries p)) :
    Frees s u start count ↔ Freeable T s start count := by
  simp only [claimed_freeEntry haligned] at hpage
  have hin : ∀ p, start ≤ 4096 * p → 4096 * p < start + count * 4096 % 2^T.ptrBits →
      pageType u.entries p = if pageType s.entries p = some .unusableMemory
        then some .unusableMemory else some .conventionalMemory := by
    intro p h₁ h₂
    rw [hpage, if_pos ⟨h₁, h₂⟩, stronger_conventional]
  have hout : ∀ p, ¬ (start ≤ 4096 * p ∧ 4096 * p < start + count * 4096 % 2^T.ptrBits) →
      pageType u.entries p = pageType s.entries p := by
    intro p h
    rw [hpage, if_neg h]
    rfl
  have hle : count * 4096 % 2^T.ptrBits ≤ 4096 * count := by
    rw [Nat.mul_comm 4096]
    exact Nat.mod_le _ _
  constructor
  · intro h p hp
    split_ifs with hlt
    · intro hnone
      have := h.absent p hp hnone
      rw [hin p hp.1 hlt, hnone] at this
      simp at this
    · intro t ht
      by_cases hu : t = .unusableMemory
      · exact .inl hu
      · have := h.freed p t hp ht hu
        rw [hout p (fun hc => hlt hc.2), ht] at this
        exact .inr (Option.some.inj this)
  · intro h
    refine ⟨?_, ?_, ?_, ?_, htable⟩
    · intro p hp
      refine hout p fun hc => hp ⟨hc.1, by omega⟩
    · intro p hp hu
      by_cases hlt : 4096 * p < start + count * 4096 % 2^T.ptrBits
      · rw [hin p hp.1 hlt, if_pos hu]
      · rw [hout p (fun hc => hlt hc.2), hu]
    · intro p t hp ht hu
      have hcond := h p hp
      by_cases hlt : 4096 * p < start + count * 4096 % 2^T.ptrBits
      · rw [hin p hp.1 hlt, ht, if_neg (by simpa using hu)]
      · rw [if_neg hlt] at hcond
        rw [hout p (fun hc => hlt hc.2), ht, (hcond t ht).resolve_left hu]
    · intro p hp hnone
      have hcond := h p hp
      by_cases hlt : 4096 * p < start + count * 4096 % 2^T.ptrBits
      · rw [if_pos hlt] at hcond
        exact absurd hnone hcond
      · rw [hout p (fun hc => hlt hc.2), hnone]

end Effect

/-- For every well-formed map and every range: where the call does not clobber
the map, panic or take a page for nodes, it frees the range as it should if and
only if the map had all of it. -/
theorem gdFreePages_frees_iff (T : Target) (fuel : ℕ) (s : State) (start count : ℕ)
    (hwf : WellFormed T s) (haligned : start % 4096 = 0) (hfits : start + 4096 * count < 2^64)
    (hfuel : 2 * capacity T s + 4 ≤ fuel)
    (hsafe : ¬ Clobbers (freeing s) (freeEntry T start count)) :
    Ensures s (fun u => Frees s u start count ↔ Freeable T s start count)
      (gdFreePages T (fuel + 1) start count s) := by
  have hfree : WellFormed T (freeing s) := by
    obtain ⟨free, hown⟩ := hwf.owned
    exact ⟨freeOverlapPrecedence_complete, ⟨free, ⟨hown.chain, hown.nodup, hown.null, hown.total⟩⟩,
      hwf.tidy⟩
  have hpieces : SafePieces T fuel (pieces (freeEntry T start count)) (freeing s) := by
    rw [pieces_aligned haligned (freeEntry_aligned T start count)]
    split_ifs
    · trivial
    · refine ⟨hsafe, ?_⟩
      cases mmapAddEntry T fuel (freeEntry T start count) (freeing s) <;> trivial
  have he := freeEntry_fits (T := T) hfits haligned
  have hadd := mmapAddEntry_gains hfree he hfuel hpieces
  refine EndsIn.andThen (hadd.congr rfl) ((addEntry_monotone T (fuel + 1)).2 _ (freeing s))
    (fun t => le_rfl) ?_
  intro t ht hgain
  refine .returned fun _ => ?_
  exact frees_iff haligned rfl fun p => freed_pageType hgain he hwf.tidy p

/-- A range of 16 pages that the loader holds, in the first static slot. -/
def loaderRange : State :=
  { State.initial .lp64 with
    entry := fun _ => { type := .loaderData, physicalStart := 0x100000, size := 0x10000 }
    tree := [0x20000]
    allocNext := 0x20048
    allocatable := 31 }

theorem loaderRange_wellFormed : WellFormed .lp64 loaderRange := by
  refine ⟨overlapPrecedence_complete, ⟨[], rfl, by decide, by decide, by decide⟩, ?_⟩
  exact tidy_cons.mpr ⟨⟨by decide, by decide, by decide, by decide⟩, by simp, tidy_nil⟩

theorem loaderRange_inside :
    Ensures loaderRange (fun u => Frees loaderRange u 0x102000 2)
      (gdFreePages .lp64 (68 + 1) 0x102000 2 loaderRange) := by
  refine (gdFreePages_frees_iff .lp64 68 loaderRange 0x102000 2 loaderRange_wellFormed (by decide)
    (by decide) (by decide) (by decide)).mono ?_
  intro u hu
  refine hu.mpr ?_
  rintro p ⟨h₁, h₂⟩
  have hp : p = 0x102 ∨ p = 0x103 := by omega
  rcases hp with rfl | rfl
  · decide
  · decide

/-- The second page freed lies behind the range and in no entry; it becomes
conventional memory. -/
theorem loaderRange_hole :
    ∃ u, gdFreePages .lp64 (68 + 1) 0x10F000 2 loaderRange = .returned u ∧
      u.refills = loaderRange.refills ∧ pageType loaderRange.entries 0x110 = none ∧
      pageType u.entries 0x110 = some .conventionalMemory ∧ ¬ Frees loaderRange u 0x10F000 2 := by
  obtain ⟨u, hu⟩ := Outcome.exists_returned (by decide +kernel :
    ¬ (gdFreePages .lp64 (68 + 1) 0x10F000 2 loaderRange).Returns fun _ => False)
  have hafter : pageType (gdFreePages .lp64 (68 + 1) 0x10F000 2 loaderRange).state.entries 0x110 =
      some .conventionalMemory := by
    decide +kernel
  have hrefills : (gdFreePages .lp64 (68 + 1) 0x10F000 2 loaderRange).state.refills =
      loaderRange.refills := by
    decide +kernel
  have hbefore : pageType loaderRange.entries 0x110 = none := by decide
  rw [hu] at hafter hrefills
  refine ⟨u, hu, hrefills, hbefore, hafter, ?_⟩
  intro h
  have habsent := h.absent 0x110 ⟨by decide, by decide⟩ hbefore
  cases habsent.symm.trans hafter

end Gandr.Mmap

import Gandr.Mmap.Maximal
import Gandr.Mmap.Runs

/-! The purpose of the memory map: a type for every page. An entry claims the
pages it covers for its type, and makes the pages it covers in part unusable.
The map refines this reading: after a run of calls a page has the strongest
type that was claimed for it. -/

namespace Gandr.Mmap

/-- `e` covers the whole page `p`. -/
def Covers (e : MemoryMapEntry) (p : ℕ) : Prop :=
  e.physicalStart ≤ 4096 * p ∧ 4096 * p + 4096 ≤ e.physicalStart + e.size

/-- `e` has a byte in the page `p`. -/
def Touches (e : MemoryMapEntry) (p : ℕ) : Prop :=
  0 < e.size ∧ e.physicalStart < 4096 * p + 4096 ∧ 4096 * p < e.physicalStart + e.size

instance (e : MemoryMapEntry) (p : ℕ) : Decidable (Covers e p) :=
  inferInstanceAs (Decidable (_ ∧ _))

instance (e : MemoryMapEntry) (p : ℕ) : Decidable (Touches e p) :=
  inferInstanceAs (Decidable (_ ∧ _ ∧ _))

theorem Covers.touches {e : MemoryMapEntry} {p : ℕ} (h : Covers e p) : Touches e p := by
  unfold Covers at h
  unfold Touches
  omega

/-- The type that `e` claims for the page `p`. -/
def claimed (e : MemoryMapEntry) (p : ℕ) : Option MemoryType :=
  if Covers e p then some e.type else if Touches e p then some .unusableMemory else none

def claimedTypes (es : List MemoryMapEntry) (p : ℕ) : List MemoryType :=
  es.filterMap fun e => claimed e p

/-- The first type of the table that is among `types`. -/
def strongest (table types : List MemoryType) : Option MemoryType :=
  table.find? fun t => t ∈ types

/-- The type stored for the page `p`. -/
def pageType (es : List MemoryMapEntry) (p : ℕ) : Option MemoryType := typeAt es (4096 * p)

section Ranks

variable {table : List MemoryType}

theorem findIdx_mem_cons (t : MemoryType) (types : List MemoryType) :
    table.findIdx (fun u => u ∈ t :: types) =
      min (rank table t) (table.findIdx fun u => u ∈ types) := by
  induction table with
  | nil => rfl
  | cons a rest ih =>
    simp only [List.findIdx_cons, rank_cons, ih]
    by_cases ha : a = t
    · simp [ha]
    · by_cases hm : a ∈ types
      · simp [hm]
      · simp [ha, hm]

theorem rankOf_strongest (types : List MemoryType) (h : Complete table) (t : Option MemoryType)
    (ht : rankOf table t = table.findIdx fun u => u ∈ types) : t = strongest table types := by
  rw [strongest, List.find?_eq_getElem?_findIdx, ← ht]
  cases t with
  | none => simp [rankOf]
  | some t =>
    change some t = table[rank table t]?
    rw [List.getElem?_eq_getElem (rank_lt h t)]
    exact congrArg some (List.getElem_idxOf (rank_lt h t)).symm

/-- The strongest type is one that none of the others beats. -/
theorem strongest_eq_some {types : List MemoryType} (h : Complete table) {t : MemoryType} :
    strongest table types = some t ↔ t ∈ types ∧ ∀ u ∈ types, rank table t ≤ rank table u := by
  have hfound : ∀ t, strongest table types = some t →
      t ∈ types ∧ ∀ u ∈ types, rank table t ≤ rank table u := by
    intro t ht
    obtain ⟨hmem, l₁, l₂, rfl, hnone⟩ := List.find?_eq_some_iff_append.mp ht
    refine ⟨by simpa using hmem, ?_⟩
    intro u hu
    have hu₁ : u ∉ l₁ := fun hin => by simpa [hu] using hnone u hin
    have ht₁ : t ∉ l₁ := fun hin => by simpa using absurd hmem (by simpa using hnone t hin)
    rw [rank, rank, List.idxOf_append_of_notMem hu₁, List.idxOf_append_of_notMem ht₁,
      List.idxOf_cons_self]
    omega
  constructor
  · exact hfound t
  · rintro ⟨hmem, hle⟩
    cases hs : strongest table types with
    | none =>
      have := List.find?_eq_none.mp hs t (h t)
      simp [hmem] at this
    | some u =>
      obtain ⟨hu, hle'⟩ := hfound u hs
      rw [rank_inj h (le_antisymm (hle u hu) (hle' t hmem))]

theorem strongest_congr {types types' : List MemoryType} (h : types.Perm types') :
    strongest table types = strongest table types' := by
  simp only [strongest, h.mem_iff]

end Ranks

section Pages

variable {table : List MemoryType} {e : MemoryMapEntry}

theorem rankOf_claimed (e : MemoryMapEntry) (p : ℕ) :
    rankOf table (claimed e p) = if Covers e p then rank table e.type
      else if Touches e p then rank table .unusableMemory else table.length := by
  unfold claimed
  split_ifs <;> rfl

/-- The pieces of an entry claim what the entry claims. -/
theorem best_pieces (h : Fits e) (p : ℕ) :
    (view table).bestAt (pieces e) (4096 * p) = rankOf table (claimed e p) := by
  have hfits := h
  unfold Fits at hfits
  have htop : (view table).top = table.length := rfl
  have hr := rank_le table e.type
  have hu := rank_le table .unusableMemory
  rw [rankOf_claimed]
  unfold pieces
  by_cases h₀ : e.size = 0
  · have hc : ¬ Covers e p := by unfold Covers; omega
    have ht : ¬ Touches e p := by unfold Touches; omega
    simp [h₀, hc, ht, htop]
  rw [if_neg h₀, Cover.View.bestAt_append]
  cases hf : trimFront e with
  | none =>
    obtain ⟨n₁, n₂⟩ := trimFront_none hf
    have hc : ¬ Covers e p := by unfold Covers; omega
    simp only [if_neg n₁, Cover.View.bestAt_cons, Cover.View.bestAt_nil, valueAt_view, htop,
      unusablePage, alignDown, if_neg hc]
    by_cases ht : Touches e p
    · rw [if_pos ht]
      unfold Touches at ht
      split_ifs <;> omega
    · rw [if_neg ht]
      unfold Touches at ht
      split_ifs <;> omega
  | some e' =>
    obtain ⟨f₀, f₁, f₂, f₃, f₄, f₅, f₆⟩ := trimFront_some h hf
    have hne : 0 < e'.size := by
      by_cases ha : e.physicalStart % 4096 = 0
      · rw [f₅ ha]
        omega
      · exact (f₆ ha).2
    have hend : e'.physicalEnd = e'.physicalStart + e'.size := Word.add_of_lt (by omega)
    have hfront : (view table).bestAt (if e.physicalStart % 4096 = 0 then []
        else [unusablePage (alignDown e.physicalStart)]) (4096 * p) =
        if 4096 * p ≤ e.physicalStart ∧ e'.physicalStart = 4096 * p + 4096 ∧
          e.physicalStart % 4096 ≠ 0
        then rank table .unusableMemory else table.length := by
      by_cases ha : e.physicalStart % 4096 = 0
      · simp [ha, htop]
      · have := (f₆ ha).1
        simp only [if_neg ha, Cover.View.bestAt_cons, Cover.View.bestAt_nil, valueAt_view, htop,
          unusablePage] at this ⊢
        split_ifs <;> omega
    have hback : (view table).bestAt (if e'.size % 4096 = 0 then []
        else [unusablePage (alignDown e'.physicalEnd)]) (4096 * p) =
        if 4096 * p < e.physicalStart + e.size ∧ e.physicalStart + e.size < 4096 * p + 4096
        then rank table .unusableMemory else table.length := by
      rw [hend, f₄]
      by_cases ha : e'.size % 4096 = 0
      · rw [if_pos ha, if_neg (by omega)]
        rfl
      · simp only [if_neg ha, Cover.View.bestAt_cons, Cover.View.bestAt_nil, valueAt_view, htop,
          unusablePage, alignDown]
        split_ifs <;> omega
    have hmiddle : (view table).bestAt (trimBack e').toList (4096 * p) =
        if e'.physicalStart ≤ 4096 * p ∧ 4096 * p + 4096 ≤ e.physicalStart + e.size
        then rank table e.type else table.length := by
      cases hb : trimBack e' with
      | none =>
        simp only [trimBack] at hb
        split_ifs at hb with b₁ b₂
        simp only [alignDown] at b₂
        rw [if_neg (by omega)]
        rfl
      | some e'' =>
        obtain ⟨b₁, b₂, b₃, b₄⟩ := trimBack_some hb hne
        simp only [alignDown] at b₃
        simp only [Option.toList_some, Cover.View.bestAt_cons, Cover.View.bestAt_nil, valueAt_view,
          htop, b₁, f₀]
        split_ifs <;> omega
    dsimp only
    rw [Cover.View.bestAt_append, hfront, hback, hmiddle]
    have hend' : e.physicalStart % 4096 ≠ 0 → e'.physicalStart =
        e.physicalStart - e.physicalStart % 4096 + 4096 := fun ha => (f₆ ha).1.symm
    have hsame : e.physicalStart % 4096 = 0 → e'.physicalStart = e.physicalStart :=
      fun ha => by rw [f₅ ha]
    by_cases hc : Covers e p
    · rw [if_pos hc]
      unfold Covers at hc
      split_ifs <;> omega
    · rw [if_neg hc]
      unfold Covers at hc
      by_cases ht : Touches e p
      · rw [if_pos ht]
        unfold Touches at ht
        split_ifs <;> omega
      · rw [if_neg ht]
        unfold Touches at ht
        split_ifs <;> omega

theorem best_flatMap {es : List MemoryMapEntry} (h : ∀ e ∈ es, Fits e) (p : ℕ) :
    (view table).bestAt (es.flatMap pieces) (4096 * p) =
      table.findIdx fun u => u ∈ claimedTypes es p := by
  induction es with
  | nil =>
    have hnone : table.findIdx (fun u => decide (u ∈ ([] : List MemoryType))) = table.length :=
      List.findIdx_eq_length.mpr (by simp)
    exact hnone.symm
  | cons e es ih =>
    obtain ⟨he, hes⟩ := List.forall_mem_cons.mp h
    have hle : (table.findIdx fun u => u ∈ claimedTypes es p) ≤ table.length :=
      List.findIdx_le_length
    rw [List.flatMap_cons, Cover.View.bestAt_append, best_pieces he, ih hes]
    cases hc : claimed e p with
    | none =>
      have ht : claimedTypes (e :: es) p = claimedTypes es p := List.filterMap_cons_none hc
      rw [ht]
      exact min_eq_right hle
    | some t =>
      have ht : claimedTypes (e :: es) p = t :: claimedTypes es p :=
        List.filterMap_cons_some hc
      rw [ht, findIdx_mem_cons]
      rfl

/-- Types are claimed by the entries that cover a page, and unusable memory by
those that cover it in part. -/
theorem mem_claimedTypes {es : List MemoryMapEntry} {p : ℕ} {t : MemoryType} :
    t ∈ claimedTypes es p ↔ (∃ e ∈ es, Covers e p ∧ e.type = t) ∨
      ((∃ e ∈ es, Touches e p ∧ ¬ Covers e p) ∧ t = .unusableMemory) := by
  rw [claimedTypes, List.mem_filterMap]
  constructor
  · rintro ⟨e, he, hc⟩
    unfold claimed at hc
    split_ifs at hc with h₁ h₂
    · exact .inl ⟨e, he, h₁, Option.some.inj hc⟩
    · exact .inr ⟨⟨e, he, h₂, h₁⟩, (Option.some.inj hc).symm⟩
  · rintro (⟨e, he, h₁, rfl⟩ | ⟨⟨e, he, h₂, h₁⟩, rfl⟩)
    · exact ⟨e, he, if_pos h₁⟩
    · exact ⟨e, he, by rw [claimed, if_neg h₁, if_pos h₂]⟩

theorem weaker_than_conventional (t : MemoryType) :
    rank overlapPrecedence .conventionalMemory ≤ rank overlapPrecedence t ↔
      t = .conventionalMemory ∨ t = .reservedMemoryType := by
  cases t <;> decide

/-- A page is conventional memory if an entry covers it as that, none covers it
in part, and none covers it with another type than reserved memory. -/
theorem strongest_conventional {es : List MemoryMapEntry} {p : ℕ} :
    strongest overlapPrecedence (claimedTypes es p) = some .conventionalMemory ↔
      (∃ e ∈ es, Covers e p ∧ e.type = .conventionalMemory) ∧
      (¬ ∃ e ∈ es, Touches e p ∧ ¬ Covers e p) ∧
      ∀ e ∈ es, Covers e p → e.type = .conventionalMemory ∨ e.type = .reservedMemoryType := by
  rw [strongest_eq_some overlapPrecedence_complete]
  simp only [weaker_than_conventional]
  constructor
  · rintro ⟨hmem, hweak⟩
    have hpart : ¬ ∃ e ∈ es, Touches e p ∧ ¬ Covers e p := by
      intro hpart
      simpa using hweak .unusableMemory (mem_claimedTypes.mpr (.inr ⟨hpart, rfl⟩))
    refine ⟨?_, hpart, fun e he hc => hweak _ (mem_claimedTypes.mpr (.inl ⟨e, he, hc, rfl⟩))⟩
    rcases mem_claimedTypes.mp hmem with h | ⟨-, ht⟩
    · exact h
    · cases ht
  · rintro ⟨hcov, hpart, hall⟩
    refine ⟨mem_claimedTypes.mpr (.inl hcov), ?_⟩
    intro t ht
    rcases mem_claimedTypes.mp ht with ⟨e, he, hc, rfl⟩ | ⟨h, -⟩
    · exact hall e he hc
    · exact absurd h hpart

end Pages

/-- No call of the sequence clobbers the map, the calls for partly covered
pages included. -/
def SafeRun (T : Target) (fuel : ℕ) : List MemoryMapEntry → State → Prop
  | [], _ => True
  | e :: es, s => SafePieces T fuel (pieces e) s ∧
    (mmapAddEntry T (fuel + 1) e s).Returns (SafeRun T fuel es)

instance decidableSafeRun (T : Target) (fuel : ℕ) :
    (es : List MemoryMapEntry) → DecidablePred (SafeRun T fuel es)
  | [], _ => .isTrue trivial
  | e :: es, s =>
    have := decidableSafeRun T fuel es
    inferInstanceAs (Decidable (SafePieces T fuel (pieces e) s ∧
      Outcome.Returns _ (SafeRun T fuel es)))

section Run

variable {T : Target} {s : State} {es : List MemoryMapEntry} {fuel : ℕ}

theorem addAll_gains (h : WellFormed T s) (hfits : ∀ e ∈ es, Fits e)
    (hfuel : 2 * capacity T s + 4 ≤ fuel) (hsafe : SafeRun T fuel es s) :
    Ensures s (fun u => Gains T s u (es.flatMap pieces)) (addAll T (fuel + 1) es s) := by
  induction es generalizing s with
  | nil => exact .returned fun _ => .refl h
  | cons e es ih =>
    obtain ⟨he, hes⟩ := List.forall_mem_cons.mp hfits
    have hstep := (mmapAddEntry_gains h he hfuel hsafe.1).and_returned
    refine hstep.andThen ((addEntry_monotone T (fuel + 1)).2 e s) (addAll_monotone _ _ es) ?_
    rintro t - ⟨ht, hgain⟩
    have hrest := hsafe.2
    rw [ht] at hrest
    refine (ih hgain.wellFormed hes (hgain.capacity ▸ hfuel) hrest).mono ?_
    intro u hu
    rw [List.flatMap_cons]
    exact hgain.trans hu

theorem initial_wellFormed (T : Target) : WellFormed T (State.initial T) :=
  ⟨overlapPrecedence_complete, ⟨[], .static rfl rfl rfl rfl⟩, tidy_nil⟩

/-- A page of a map that gained `es` has the strongest type claimed for it. -/
theorem Gains.pageType {u : State} (h : Gains T s u (es.flatMap pieces))
    (hs : Complete s.overlapPrecedence) (hempty : s.entries = []) (hfits : ∀ e ∈ es, Fits e)
    (p : ℕ) : pageType u.entries p = strongest s.overlapPrecedence (claimedTypes es p) := by
  refine rankOf_strongest _ hs _ ?_
  have hx := h.best (4096 * p)
  rw [hempty, best_flatMap hfits, Cover.View.bestAt_nil] at hx
  rw [Mmap.pageType, ← best_tidy h.wellFormed.tidy, hx]
  exact min_eq_left List.findIdx_le_length

/-- The reading of a map as the types of its pages. -/
def Refines (es : List MemoryMapEntry) (u : State) : Prop :=
  Tidy u.entries ∧
    ∀ p, pageType u.entries p = strongest overlapPrecedence (claimedTypes es p)

theorem addAll_refines (hfuel : 68 ≤ fuel) (hfits : ∀ e ∈ es, Fits e)
    (hsafe : SafeRun T fuel es (State.initial T)) :
    Ensures (State.initial T) (Refines es) (addAll T (fuel + 1) es (State.initial T)) := by
  refine (addAll_gains (initial_wellFormed T) hfits ?_ hsafe).mono ?_
  · exact le_trans (by simp [capacity, mmapStaticSlots, State.initial]) hfuel
  · intro u hu
    exact ⟨hu.wellFormed.tidy, hu.pageType overlapPrecedence_complete rfl hfits⟩

/-- Every sequence of calls from the empty map that clobbers nothing ends in a
map that stores the strongest claimed types, and any other order of the same
calls that clobbers nothing stores the same types. -/
theorem mmapAddEntry_run_refines (T : Target) (fuel : ℕ) (hfuel : 68 ≤ fuel)
    (es : List MemoryMapEntry) (hfits : ∀ e ∈ es, Fits e)
    (hsafe : SafeRun T fuel es (State.initial T)) :
    Ensures (State.initial T) (Refines es) (addAll T (fuel + 1) es (State.initial T)) ∧
    ∀ es', es'.Perm es → SafeRun T fuel es' (State.initial T) →
      Ensures (State.initial T) (fun u' =>
        Ensures (State.initial T)
          (fun u => ∀ p, pageType u'.entries p = pageType u.entries p)
          (addAll T (fuel + 1) es (State.initial T)))
        (addAll T (fuel + 1) es' (State.initial T)) := by
  have href := addAll_refines hfuel hfits hsafe
  refine ⟨href, ?_⟩
  intro es' hperm hsafe'
  have hfits' : ∀ e ∈ es', Fits e := fun e he => hfits e (hperm.mem_iff.mp he)
  refine (addAll_refines hfuel hfits' hsafe').mono ?_
  intro u' hu'
  refine href.mono ?_
  intro u hu p
  rw [hu'.2 p, hu.2 p]
  exact strongest_congr (hperm.filterMap _)

/-- Conventional memory, with a partly covered range of the loader in it. -/
def loaderInside : List MemoryMapEntry :=
  [{ type := .conventionalMemory, physicalStart := 0, size := 0x10000 },
    { type := .loaderCode, physicalStart := 0x8000, size := 0x1800 }]

theorem loaderInside_refines :
    SafeRun .lp64 68 loaderInside (State.initial .lp64) ∧
      Ensures (State.initial .lp64) (Refines loaderInside)
        (addAll .lp64 (68 + 1) loaderInside (State.initial .lp64)) :=
  ⟨by decide +kernel,
    (mmapAddEntry_run_refines .lp64 68 le_rfl loaderInside (by decide) (by decide +kernel)).1⟩

/-- Five ranges of conventional memory; the last repeats the second. -/
def repeatedRange : List MemoryMapEntry :=
  [{ type := .conventionalMemory, physicalStart := 0, size := 0x1000 },
    { type := .conventionalMemory, physicalStart := 0x2000, size := 0x1000 },
    { type := .conventionalMemory, physicalStart := 0x1000, size := 0x1000 },
    { type := .conventionalMemory, physicalStart := 0x3000, size := 0x2000 },
    { type := .conventionalMemory, physicalStart := 0x2000, size := 0x1000 }]

theorem not_ensures {s : State} {Q : State → Prop} {o : Outcome}
    (ho : ¬ o.Returns fun _ => False) (hr : o.state.refills = s.refills) (hq : ¬ Q o.state) :
    ¬ Ensures s Q o := by
  intro h
  cases h with
  | returned h => exact hq (h hr)
  | panicked h => exact ho trivial
  | outOfFuel h => exact ho trivial

/-- Merging around the freed node drops page 0 from the map. -/
theorem repeatedRange_not_refined :
    (∀ e ∈ repeatedRange, Fits e) ∧
      ¬ Ensures (State.initial .lp64) (Refines repeatedRange)
        (addAll .lp64 (68 + 1) repeatedRange (State.initial .lp64)) := by
  refine ⟨by decide, not_ensures (by decide +kernel) (by decide +kernel) ?_⟩
  refine mt (fun href => href.2 0) ?_
  decide +kernel

end Run

/-- The stronger of two types that a page may have, or the only one. -/
def stronger (table : List MemoryType) : Option MemoryType → Option MemoryType → Option MemoryType
  | none, u => u
  | t, none => t
  | some t, some u => some (higherPrecedence table t u)

theorem rankOf_stronger {table : List MemoryType} (h : Complete table) (t u : Option MemoryType) :
    rankOf table (stronger table t u) = min (rankOf table t) (rankOf table u) := by
  cases t with
  | none => exact (min_eq_right (rankOf_le u)).symm
  | some t =>
    cases u with
    | none => exact (min_eq_left (rankOf_le (some t))).symm
    | some u => exact rank_higherPrecedence h t u

/-- A map in which `first` may overlap entries behind it, and nothing else
overlaps. -/
structure FirstOverlaps (T : Target) (s : State) (pre : List Ptr) (first : Ptr)
    (post : List Ptr) : Prop where
  complete : Complete s.overlapPrecedence
  owned : ∃ free, Owned T s [] free
  tree : s.tree = pre ++ first :: post
  sorted : s.tree.Pairwise fun m n => (s.entry m).physicalStart < (s.entry n).physicalStart
  good : Good (s.entry first)
  others : Tidy ((pre ++ post).map s.entry)
  front : ∀ m ∈ pre, Before (s.entry m) (s.entry first)

/-- What `fix_overlap` owes to its callers. -/
structure Resolved (T : Target) (s u : State) (first : Ptr) (others : List MemoryMapEntry) :
    Prop where
  wellFormed : WellFormed T u
  linked : first ∈ u.tree
  types : ∀ x, typeAt u.entries x =
    stronger s.overlapPrecedence (typeAt [s.entry first] x) (typeAt others x)

section Contract

variable {T : Target} {s : State} {pre post : List Ptr} {first : Ptr}

theorem FirstOverlaps.fixPre (h : FirstOverlaps T s pre first post) :
    FixPre T s pre first post := by
  have hsorted := h.sorted
  rw [h.tree, List.pairwise_append, List.pairwise_cons] at hsorted
  obtain ⟨-, ⟨habove, -⟩, hbelow⟩ := hsorted
  have hothers := h.others
  rw [List.map_append, tidy_append] at hothers
  exact ⟨h.complete, h.owned, h.tree, h.good, hothers.2.1,
    fun m hm k hk => hbelow m hm k (List.mem_cons_of_mem _ hk), habove⟩

/-- The entries in front stay in front of what `fix_overlap` leaves, since it
makes no start below the first one. -/
theorem FirstOverlaps.resolved {u : State} {post' : List Ptr}
    (h : FirstOverlaps T s pre first post) (hf : Fixed T s u pre first post post') :
    Resolved T s u first ((pre ++ post).map s.entry) := by
  have hpre := h.fixPre
  have hothers := h.others
  rw [List.map_append, tidy_append] at hothers
  have hmap : u.entries = pre.map s.entry ++ (first :: post').map u.entry := by
    rw [State.entries, hf.tree, List.map_append, List.map_congr_left hf.frame]
  have hlow : ∀ m ∈ post', (s.entry first).physicalStart ≤ (u.entry m).physicalStart :=
    hf.lower _ fun m hm => (hpre.above m hm).le
  have htidy : Tidy u.entries := by
    rw [hmap, tidy_append]
    refine ⟨hothers.1, hf.tidy, ?_⟩
    intro a ha b hb
    obtain ⟨m, hm, rfl⟩ := List.mem_map.mp ha
    have hfront := h.front m hm
    unfold Before at hfront ⊢
    rcases List.mem_cons.mp hb with rfl | hb
    · rw [hf.start]
      exact hfront
    · obtain ⟨k, hk, rfl⟩ := List.mem_map.mp hb
      exact hfront.trans (hlow k hk)
  refine ⟨⟨hf.table ▸ h.complete, hf.owned, htidy⟩, by simp [hf.tree], ?_⟩
  intro x
  refine rankOf_inj h.complete ?_
  have hone : Tidy [s.entry first] := tidy_cons.mpr ⟨h.good, by simp, tidy_nil⟩
  rw [rankOf_stronger h.complete, ← best_tidy htidy, ← best_tidy hone, ← best_tidy h.others, hmap,
    Cover.View.bestAt_append, hf.best x]
  simp only [List.map_cons, List.map_append, Cover.View.bestAt_cons, Cover.View.bestAt_nil,
    Cover.View.bestAt_append]
  have hle := (view s.overlapPrecedence).bestAt_le_top (pre.map s.entry) x
  omega

end Contract

/-- From every map in which only `first` overlaps, and only entries behind it,
`fix_overlap` ends, and unless it panics or takes a page for nodes the map is
well-formed, `first` is linked, and every address has the stronger of the types
that `first` and the other entries gave it. -/
theorem fixOverlap_resolves (T : Target) (fuel : ℕ) (s : State) (pre post : List Ptr) (first : Ptr)
    (h : FirstOverlaps T s pre first post) (hfuel : 2 * post.length + 3 ≤ fuel) :
    Ensures s (fun u => Resolved T s u first ((pre ++ post).map s.entry))
      (fixOverlap T fuel first s) := by
  have hfix := (addSpec T post.length).1 fuel s pre first post hfuel le_rfl h.fixPre
  refine (hfix.mono ?_).weaken fun _ _ => trivial
  rintro u ⟨post', hs⟩
  exact h.resolved hs.toFixed

/-- Conventional memory, over a range of the loader and the start of a reserved
one. -/
def overlappingFirst : State :=
  { State.initial .lp64 with
    entry := fun n =>
      if n = 0x20000 then { type := .conventionalMemory, physicalStart := 0x1000, size := 0x7000 }
      else if n = 0x20048 then { type := .loaderCode, physicalStart := 0x3000, size := 0x1000 }
      else { type := .reservedMemoryType, physicalStart := 0x6000, size := 0x4000 }
    tree := [0x20000, 0x20048, 0x20090]
    allocNext := 0x200d8
    allocatable := 29 }

theorem overlappingFirst_resolved :
    FirstOverlaps .lp64 overlappingFirst [] 0x20000 [0x20048, 0x20090] ∧
      Ensures overlappingFirst
        (fun u => Resolved .lp64 overlappingFirst u 0x20000
          ([0x20048, 0x20090].map overlappingFirst.entry))
        (fixOverlap .lp64 7 0x20000 overlappingFirst) := by
  have h : FirstOverlaps .lp64 overlappingFirst [] 0x20000 [0x20048, 0x20090] := by
    refine ⟨overlapPrecedence_complete, ⟨[], rfl, by decide, by decide, by decide⟩, rfl, by decide,
      ⟨by decide, by decide, by decide, by decide⟩, ⟨?_, ?_⟩, by simp⟩
    · intro e he
      simp only [overlappingFirst, List.nil_append, List.map_cons, List.map_nil, List.mem_cons,
        List.not_mem_nil, or_false] at he
      rcases he with rfl | rfl
      · exact ⟨by decide, by decide, by decide, by decide⟩
      · exact ⟨by decide, by decide, by decide, by decide⟩
    · exact List.pairwise_pair.mpr (by unfold Before; decide)
  exact ⟨h, fixOverlap_resolves .lp64 7 overlappingFirst [] _ _ h le_rfl⟩

end Gandr.Mmap

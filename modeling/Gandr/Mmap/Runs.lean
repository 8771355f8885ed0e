import Gandr.Mmap.Fuel
import Gandr.Mmap.Redundant

/-! Sequences of `mmap_add_entry` calls. An unaligned entry is added as a list
of page-aligned pieces, and a run of calls leaves for every page the strongest
type that the added entries claim for it. -/

namespace Gandr.Mmap

/-- From `s` to `u` exactly the entries `es` were added. -/
structure Gains (T : Target) (s u : State) (es : List MemoryMapEntry) : Prop where
  wellFormed : WellFormed T u
  table : u.overlapPrecedence = s.overlapPrecedence
  pages : u.nodePages = s.nodePages
  best : ∀ x, (view s.overlapPrecedence).bestAt u.entries x =
    min ((view s.overlapPrecedence).bestAt es x) ((view s.overlapPrecedence).bestAt s.entries x)

section Step

variable {T : Target} {s t u : State} {es fs : List MemoryMapEntry} {e : MemoryMapEntry} {fuel : ℕ}

theorem Gains.refl (h : WellFormed T s) : Gains T s s [] where
  wellFormed := h
  table := rfl
  pages := rfl
  best x := by simp [Cover.View.bestAt_le_top]

theorem Gains.trans (h : Gains T s t es) (h' : Gains T t u fs) : Gains T s u (es ++ fs) where
  wellFormed := h'.wellFormed
  table := h'.table.trans h.table
  pages := h'.pages.trans h.pages
  best x := by
    have hx := h'.best x
    rw [h.table] at hx
    rw [hx, h.best x, Cover.View.bestAt_append]
    omega

theorem Gains.capacity (h : Gains T s t es) : Mmap.capacity T t = Mmap.capacity T s := by
  simp only [Mmap.capacity, h.pages]

/-- One page-aligned entry: the call ends in the list that `addTo` gives, or
panics where it gives none. -/
theorem addEntry_addTo (h : WellFormed T s) (hg : Good e) (hc : ¬ Clobbers s e)
    (hfuel : 2 * capacity T s + 4 ≤ fuel) :
    EndsIn (PanicsAs (addTo s.overlapPrecedence e s.entries)) s (fun u => Gains T s u [e] ∧
      addTo s.overlapPrecedence e s.entries = some u.entries) (mmapAddEntry T fuel e s) := by
  obtain ⟨free, ho⟩ := h.owned
  by_cases hr : ∃ m ∈ s.entries, Redundant s.overlapPrecedence e m
  · obtain ⟨m, hm, hr⟩ := hr
    have hstale : ¬ StaleMatch s e := fun hs => hc ⟨⟨m, hm, hr⟩, hs⟩
    obtain ⟨k, rfl⟩ : ∃ k, fuel = k + 3 := ⟨fuel - 3, by omega⟩
    refine ((addEntry_redundant h hg hm hr hstale k).weaken fun m hm => .inl hm).mono ?_
    intro u hu
    have he : u.entries = s.entries := by
      rw [State.entries, hu.tree, State.entries]
      exact List.map_congr_left hu.entry
    have hlist : addTo s.overlapPrecedence e s.entries = some u.entries := by
      rw [addTo, if_pos ⟨m, hm, hr⟩, he]
    refine ⟨⟨⟨hu.table ▸ h.complete, hu.owned, he ▸ h.tidy⟩, hu.table, hu.pages, ?_⟩, hlist⟩
    intro x
    have hrank := rank_le s.overlapPrecedence m.type
    rw [he, Cover.View.bestAt_cons, Cover.View.bestAt_nil]
    by_cases hx : e.physicalStart ≤ x ∧ x < e.physicalStart + e.size
    · have hmx : (view s.overlapPrecedence).Contains m x := by
        obtain ⟨h₁, h₂, -⟩ := hr
        exact ⟨by change m.physicalStart ≤ x; omega,
          by change x < m.physicalStart + m.size; omega⟩
      have hbest := Cover.View.bestAt_le _ hm hmx
      change _ ≤ rank s.overlapPrecedence m.type at hbest
      rw [valueAt_view, if_pos hx, min_eq_right]
      have := hr.2.2
      have htop : (view s.overlapPrecedence).top = s.overlapPrecedence.length := rfl
      have := rank_le s.overlapPrecedence e.type
      omega
    · have htop := Cover.View.bestAt_le_top (view s.overlapPrecedence) s.entries x
      have heq : (view s.overlapPrecedence).top = s.overlapPrecedence.length := rfl
      rw [valueAt_view, if_neg hx]
      omega
  · have hadd := (addSpec T s.tree.length).2 fuel s [] s.tree e
      (by have := ho.length_tree; omega) (List.length_filter_le _ _)
      ⟨h.complete, h.owned, rfl, hg, h.tidy, by simp, .inl rfl⟩
      (fun m hm hred => hr ⟨_, List.mem_map_of_mem hm, hred⟩)
    refine hadd.mono ?_
    rintro u ⟨post', hu⟩
    have htree : u.tree = post' := hu.tree
    have hlist : addTo s.overlapPrecedence e s.entries = some u.entries := by
      rw [State.entries, State.entries, htree]
      exact hu.list
    refine ⟨⟨⟨hu.table ▸ h.complete, hu.owned, ?_⟩, hu.table, hu.pages, ?_⟩, hlist⟩
    · rw [State.entries, htree]
      exact hu.tidy
    · intro x
      rw [State.entries, htree, hu.best x, Cover.View.bestAt_cons, Cover.View.bestAt_cons,
        Cover.View.bestAt_nil]
      exact congrArg₂ _ (min_eq_left (Cover.View.valueAt_le_top _ (rank_le _ _) x)).symm rfl

theorem addEntry_gains (h : WellFormed T s) (hg : Good e) (hc : ¬ Clobbers s e)
    (hfuel : 2 * capacity T s + 4 ≤ fuel) :
    Ensures s (fun u => Gains T s u [e]) (mmapAddEntry T fuel e s) :=
  ((addEntry_addTo h hg hc hfuel).weaken fun _ _ => trivial).mono fun _ hu => hu.1

end Step

/-- The page-aligned entries that a call adds, in the order it adds them. -/
def pieces (entry : MemoryMapEntry) : List MemoryMapEntry :=
  if entry.size = 0 then []
  else
    (if entry.physicalStart % 0x1000 = 0 then []
      else [unusablePage (alignDown entry.physicalStart)]) ++
    match trimFront entry with
    | none => []
    | some entry =>
      (if entry.size % 0x1000 = 0 then [] else [unusablePage (alignDown entry.physicalEnd)]) ++
      (trimBack entry).toList

/-- An entry whose pieces all fit below `2^64`. -/
def Fits (e : MemoryMapEntry) : Prop := e.physicalStart + e.size ≤ 2^64 - 4096

instance (e : MemoryMapEntry) : Decidable (Fits e) := inferInstanceAs (Decidable (_ ≤ _))

section Pieces

variable {T : Target} {s : State} {e e' : MemoryMapEntry} {fuel : ℕ}

theorem good_unusablePage {a : ℕ} (h : a < 2^64 - 4096) : Good (unusablePage (alignDown a)) := by
  constructor <;> simp only [unusablePage, alignDown] <;> omega

theorem trimFront_some (h : Fits e) (ht : trimFront e = some e') :
    e'.type = e.type ∧ e'.physicalStart % 4096 = 0 ∧ e.physicalStart ≤ e'.physicalStart ∧
      e'.physicalStart < e.physicalStart + 4096 ∧
      e'.physicalStart + e'.size = e.physicalStart + e.size ∧
      (e.physicalStart % 4096 = 0 → e' = e) ∧
      (e.physicalStart % 4096 ≠ 0 → alignDown e.physicalStart + 4096 = e'.physicalStart ∧
        0 < e'.size) := by
  unfold Fits at h
  simp only [trimFront] at ht
  split_ifs at ht with h₁ h₂
  · cases ht
    refine ⟨rfl, h₁, le_rfl, by omega, rfl, fun _ => rfl, fun h => absurd h₁ h⟩
  · cases ht
    have hadd : Word.add 64 (alignDown e.physicalStart) 4096 =
        alignDown e.physicalStart + 4096 := by
      refine Word.add_of_lt ?_
      simp only [alignDown]
      omega
    simp only [hadd]
    refine ⟨trivial, ?_, ?_, ?_, ?_, fun h => absurd h h₁, fun _ => ⟨trivial, by omega⟩⟩
    all_goals
      simp only [alignDown]
      omega

theorem trimFront_none (ht : trimFront e = none) :
    e.physicalStart % 4096 ≠ 0 ∧ e.physicalStart % 4096 + e.size ≤ 4096 := by
  simp only [trimFront] at ht
  split_ifs at ht with h₁ h₂
  exact ⟨h₁, by omega⟩

theorem trimBack_some (ht : trimBack e = some e') (hne : 0 < e.size) :
    e'.type = e.type ∧ e'.physicalStart = e.physicalStart ∧ e'.size = alignDown e.size ∧
      0 < e'.size := by
  simp only [trimBack] at ht
  split_ifs at ht with h₁ h₂
  · cases ht
    refine ⟨rfl, rfl, ?_, hne⟩
    simp only [alignDown]
    omega
  · cases ht
    exact ⟨rfl, rfl, rfl, Nat.pos_of_ne_zero h₂⟩

theorem good_pieces (h : Fits e) : ∀ m ∈ pieces e, Good m := by
  have hfits := h
  unfold Fits at hfits
  intro m hm
  unfold pieces at hm
  by_cases h₀ : e.size = 0
  · simp [h₀] at hm
  rw [if_neg h₀] at hm
  rcases List.mem_append.mp hm with hm | hm
  · split_ifs at hm with h₁
    · simp at hm
    · obtain rfl := List.mem_singleton.mp hm
      exact good_unusablePage (by omega)
  split at hm
  · simp at hm
  next e' ht =>
  obtain ⟨-, f₁, f₂, f₃, f₄, f₅, f₆⟩ := trimFront_some h ht
  have hne : 0 < e'.size := by
    by_cases ha : e.physicalStart % 4096 = 0
    · rw [f₅ ha]
      omega
    · exact (f₆ ha).2
  have hend : e'.physicalEnd = e'.physicalStart + e'.size := Word.add_of_lt (by omega)
  rcases List.mem_append.mp hm with hm | hm
  · split_ifs at hm with h₂
    · simp at hm
    · obtain rfl := List.mem_singleton.mp hm
      rw [hend]
      exact good_unusablePage (by omega)
  · obtain ⟨-, b₂, b₃, b₄⟩ := trimBack_some (by simpa using hm) hne
    simp only [alignDown] at b₃
    exact ⟨by omega, by omega, b₄, by omega⟩

/-- A sequence of `mmap_add_entry` calls. -/
def addAll (T : Target) (fuel : ℕ) : List MemoryMapEntry → State → Outcome
  | [], s => .returned s
  | e :: es, s => (mmapAddEntry T fuel e s).andThen (addAll T fuel es)

theorem addAll_monotone (T : Target) (fuel : ℕ) (es : List MemoryMapEntry) :
    Monotone (addAll T fuel es) := by
  induction es with
  | nil => exact fun s => le_rfl
  | cons e es ih => exact ((addEntry_monotone T fuel).2 e).andThen ih

theorem addAll_append (T : Target) (fuel : ℕ) (es fs : List MemoryMapEntry) (s : State) :
    addAll T fuel (es ++ fs) s = (addAll T fuel es s).andThen (addAll T fuel fs) := by
  induction es generalizing s with
  | nil => rfl
  | cons e es ih =>
    rw [List.cons_append, addAll, addAll]
    cases mmapAddEntry T fuel e s with
    | returned t => exact ih t
    | panicked m t => rfl
    | outOfFuel t => rfl

theorem addAll_singleton (T : Target) (fuel : ℕ) (e : MemoryMapEntry) (s : State) :
    addAll T fuel [e] s = mmapAddEntry T fuel e s := by
  rw [addAll]
  cases mmapAddEntry T fuel e s <;> rfl

theorem addAll_ite (T : Target) (fuel : ℕ) (c : Prop) [Decidable c] (e : MemoryMapEntry)
    (s : State) : addAll T fuel (if c then [] else [e]) s =
      if c then .returned s else mmapAddEntry T fuel e s := by
  split_ifs
  · rfl
  · exact addAll_singleton T fuel e s

/-- A call adds its pieces one after the other. -/
theorem addAll_upTo (T : Target) (fuel : ℕ) (hfits : Fits e) (s : State) :
    (addAll T fuel (pieces e) s).UpTo (mmapAddEntry T (fuel + 1) e s) := by
  have hgood := good_pieces hfits
  have hmono := addEntry_monotone T fuel
  have hrest : ∀ e : MemoryMapEntry, Monotone fun s =>
      match trimBack e with
      | none => .returned s
      | some e => insertEntry T (fixOverlap T fuel) e s := by
    intro e s
    dsimp only
    split
    · exact le_rfl
    · exact insertEntry_monotone hmono.1 _ s
  rw [mmapAddEntry]
  unfold mmapAddEntryBody
  unfold pieces at hgood ⊢
  by_cases h₀ : e.size = 0
  · simp only [if_pos h₀]
    exact .refl _
  simp only [if_neg h₀] at hgood ⊢
  rw [addAll_append, addAll_ite]
  refine (Outcome.UpTo.refl _).andThen (fun t => ?_) (fun t => ?_)
  · cases hf : trimFront e with
    | none => exact .refl _
    | some e' =>
      simp only [hf] at hgood ⊢
      rw [addAll_append, addAll_ite]
      refine (Outcome.UpTo.refl _).andThen (fun u => ?_) (hrest e')
      cases hb : trimBack e' with
      | none => exact .refl _
      | some e'' =>
        have hg : Good e'' := hgood e'' (by simp [hb])
        rw [Option.toList_some, addAll_singleton]
        dsimp only
        rw [← mmapAddEntry_aligned T fuel hg]
        exact (fuel_upTo T fuel).2 e'' u
  · cases trimFront e with
    | none => exact le_rfl
    | some e' =>
      refine le_andThen ?_ (hrest e')
      split_ifs
      · exact le_rfl
      · exact hmono.2 _ t

/-- `Q` holds where the call returns. -/
def Outcome.Returns (o : Outcome) (Q : State → Prop) : Prop :=
  match o with
  | .returned s => Q s
  | .panicked _ _ => True
  | .outOfFuel _ => True

instance (o : Outcome) (Q : State → Prop) [DecidablePred Q] : Decidable (o.Returns Q) :=
  match o with
  | .returned s => inferInstanceAs (Decidable (Q s))
  | .panicked _ _ => .isTrue trivial
  | .outOfFuel _ => .isTrue trivial

theorem Outcome.exists_returned {o : Outcome} (h : ¬ o.Returns fun _ => False) :
    ∃ s, o = .returned s := by
  cases o with
  | returned s => exact ⟨s, rfl⟩
  | panicked m s => exact absurd trivial h
  | outOfFuel s => exact absurd trivial h

/-- No piece clobbers the map at the moment it is added. -/
def SafePieces (T : Target) (fuel : ℕ) : List MemoryMapEntry → State → Prop
  | [], _ => True
  | e :: es, s => ¬ Clobbers s e ∧ (mmapAddEntry T fuel e s).Returns (SafePieces T fuel es)

instance decidableSafePieces (T : Target) (fuel : ℕ) :
    (es : List MemoryMapEntry) → DecidablePred (SafePieces T fuel es)
  | [], _ => .isTrue trivial
  | e :: es, s =>
    have := decidableSafePieces T fuel es
    inferInstanceAs (Decidable (¬ Clobbers s e ∧ Outcome.Returns _ (SafePieces T fuel es)))

/-- What the pieces leave, one after the other. -/
theorem addAll_pieces_gains {es : List MemoryMapEntry} (h : WellFormed T s)
    (hgood : ∀ m ∈ es, Good m) (hfuel : 2 * capacity T s + 4 ≤ fuel)
    (hsafe : SafePieces T fuel es s) :
    Ensures s (fun u => Gains T s u es) (addAll T fuel es s) := by
  induction es generalizing s with
  | nil => exact .returned fun _ => .refl h
  | cons m es ih =>
    obtain ⟨hm, hes⟩ := List.forall_mem_cons.mp hgood
    have hstep := (addEntry_gains h hm hsafe.1 hfuel).and_returned
    refine hstep.andThen ((addEntry_monotone T fuel).2 m s) (addAll_monotone _ _ es) ?_
    rintro t - ⟨ht, hgain⟩
    have hrest := hsafe.2
    rw [ht] at hrest
    exact (ih hgain.wellFormed hes (hgain.capacity ▸ hfuel) hrest).mono fun u hu => hgain.trans hu

theorem mmapAddEntry_gains (h : WellFormed T s) (hfits : Fits e)
    (hfuel : 2 * capacity T s + 4 ≤ fuel) (hsafe : SafePieces T fuel (pieces e) s) :
    Ensures s (fun u => Gains T s u (pieces e)) (mmapAddEntry T (fuel + 1) e s) :=
  (addAll_upTo T fuel hfits s).endsIn (addAll_monotone T fuel _ s)
    (addAll_pieces_gains h (good_pieces hfits) hfuel hsafe)

end Pieces

end Gandr.Mmap

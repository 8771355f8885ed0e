import Gandr.Mmap.Ownership

/-! `mmap_get` and the key it reports. The key rises with every change that
`mmap_add_entry`, `gd_alloc_pages` and `gd_free_pages` make; `mmap_clean` leaves
it alone. -/

namespace Gandr.Mmap

/-- The table of the caller after `mmap_get`, and what it stores through
`needed` and `key`. -/
structure GetReply where
  tab : ℕ → MemoryMapEntry
  needed : ℕ
  key : ℕ

/-- The `RB_FOREACH` of `mmap_get` over the nodes still to visit. -/
def getLoop (s : State) (nentries : ℕ) :
    List Ptr → ℕ → (ℕ → MemoryMapEntry) → (ℕ → MemoryMapEntry) × ℕ
  | [], i, tab => (tab, i)
  | ent :: rest, i, tab =>
    getLoop s nentries rest (i + 1)
      (if i < nentries then Function.update tab i (s.entry ent) else tab)

def mmapGet (T : Target) (tab : ℕ → MemoryMapEntry) (nentries : ℕ) (s : State) : GetReply :=
  let r := getLoop s nentries s.tree 0 tab
  { tab := r.1, needed := r.2, key := s.mmapKey % 2^T.ptrBits }

/-- The reply counts the entries `es` and holds as many of them as fit; the rest
of the table is as it was. -/
structure Reports (r : GetReply) (tab : ℕ → MemoryMapEntry) (nentries : ℕ)
    (es : List MemoryMapEntry) : Prop where
  needed : r.needed = es.length
  written : ∀ i < min nentries r.needed, es[i]? = some (r.tab i)
  kept : ∀ i, min nentries r.needed ≤ i → r.tab i = tab i

section Get

variable {T : Target} {s t : State} {tab tab' : ℕ → MemoryMapEntry} {n n' : ℕ}

theorem getLoop_needed (l : List Ptr) (i : ℕ) : (getLoop s n l i tab).2 = i + l.length := by
  induction l generalizing i tab with
  | nil => rfl
  | cons ent rest ih =>
    rw [getLoop, ih, List.length_cons]
    omega

theorem getLoop_tab (l : List Ptr) (i j : ℕ) :
    (getLoop s n l i tab).1 j =
      if i ≤ j ∧ j < n then ((l.map s.entry)[j - i]?).getD (tab j) else tab j := by
  induction l generalizing i tab with
  | nil => simp [getLoop]
  | cons ent rest ih =>
    rw [getLoop, ih]
    have hsame : j ≠ i →
        (if i < n then Function.update tab i (s.entry ent) else tab) j = tab j := by
      intro hne
      split_ifs
      · exact Function.update_of_ne hne _ _
      · rfl
    rcases lt_trichotomy i j with hlt | rfl | hgt
    · have hsub : j - i = j - (i + 1) + 1 := by omega
      rw [hsame hlt.ne', hsub, List.map_cons, List.getElem?_cons_succ]
      simp only [hlt.le, Nat.succ_le_of_lt hlt, true_and]
    · by_cases hi : i < n
      · simp [hi]
      · simp [hi]
    · rw [hsame hgt.ne, if_neg (by omega : ¬ (i + 1 ≤ j ∧ j < n)),
        if_neg (by omega : ¬ (i ≤ j ∧ j < n))]

theorem mmapGet_reports (T : Target) (s : State) (tab : ℕ → MemoryMapEntry) (n : ℕ) :
    Reports (mmapGet T tab n s) tab n s.entries := by
  have hneeded : (mmapGet T tab n s).needed = s.entries.length := by
    simp [mmapGet, getLoop_needed, State.entries]
  refine ⟨hneeded, ?_, ?_⟩
  · intro i hi
    rw [hneeded] at hi
    have hlt : i < s.entries.length := hi.trans_le (min_le_right _ _)
    have htab : (mmapGet T tab n s).tab i = (s.entries[i]?).getD (tab i) :=
      (getLoop_tab s.tree 0 i).trans (if_pos ⟨Nat.zero_le i, hi.trans_le (min_le_left _ _)⟩)
    rw [htab, List.getElem?_eq_getElem hlt]
    rfl
  · intro i hi
    rw [hneeded] at hi
    have htab := @getLoop_tab s tab n s.tree 0 i
    refine htab.trans ?_
    split_ifs with hin
    · have hnone : (s.tree.map s.entry)[i - 0]? = none :=
        List.getElem?_eq_none (by change s.entries.length ≤ i; omega)
      rw [hnone]
      rfl
    · rfl

end Get

/-- The states of a run in which `mmap_get` can be called: the first one, and
the one after each call that returns. -/
def visited (T : Target) (fuel : ℕ) : List Call → State → List State
  | [], s => [s]
  | c :: cs, s => s :: match c.run T fuel s with
    | .returned t => visited T fuel cs t
    | _ => []

/-- Two replies report equally many entries, and the same ones as far as both
tables go. -/
def SameReport (r r' : GetReply) (n n' : ℕ) : Prop :=
  r.needed = r'.needed ∧ ∀ i < min (min n n') r.needed, r.tab i = r'.tab i

/-- Wherever two calls of `mmap_get` are made, the same key comes with the same
report. -/
def KeyDetects (T : Target) (states : List State) : Prop :=
  ∀ s ∈ states, ∀ t ∈ states, ∀ tab tab' n n',
    (mmapGet T tab n s).key = (mmapGet T tab' n' t).key →
      SameReport (mmapGet T tab n s) (mmapGet T tab' n' t) n n'

/-- Every `mmap_clean` of the run finds the map empty. -/
def CleansEmpty (T : Target) (fuel : ℕ) : List Call → State → Prop
  | [], _ => True
  | c :: cs, s => (c = .clean → s.tree = []) ∧ (c.run T fuel s).Returns (CleansEmpty T fuel cs)

/-- The key did not fall, and if it stayed, so did the entries. -/
structure KeyStep (s t : State) : Prop where
  le : s.mmapKey ≤ t.mmapKey
  same : t.mmapKey = s.mmapKey → t.entries = s.entries

theorem KeyStep.refl (s : State) : KeyStep s s := ⟨le_rfl, fun _ => rfl⟩

theorem KeyStep.trans {s t u : State} (h : KeyStep s t) (h' : KeyStep t u) : KeyStep s u where
  le := h.le.trans h'.le
  same hkey := by
    have htu := h.le
    have hst := h'.le
    rw [h'.same (by omega), h.same (by omega)]

theorem KeyStep.of_lt {s t : State} (h : s.mmapKey < t.mmapKey) : KeyStep s t :=
  ⟨h.le, fun hkey => absurd hkey h.ne'⟩

namespace Outcome

variable {o : Outcome} {Q R : State → Prop} {f : State → Outcome}

theorem Returns.andThen (h : o.Returns Q) (hf : ∀ t, Q t → (f t).Returns R) :
    (o.andThen f).Returns R := by
  cases o with
  | returned t => exact hf t h
  | panicked m t => trivial
  | outOfFuel t => trivial

theorem Returns.mono (h : o.Returns Q) (hqr : ∀ t, Q t → R t) : o.Returns R := by
  cases o with
  | returned t => exact hqr t h
  | panicked m t => trivial
  | outOfFuel t => trivial

end Outcome

section Steps

variable {T : Target} {s t : State}

theorem mmapKey_use (s : State) (n : Ptr) : (s.use n).mmapKey = s.mmapKey := by
  unfold State.use
  split_ifs <;> rfl

theorem mmapKey_rbInsert (s : State) (n : Ptr) : (rbInsert s n).2.mmapKey = s.mmapKey := by
  unfold rbInsert
  dsimp only
  split <;> rfl

theorem mmapKey_rbRemove (s : State) (n : Ptr) : (rbRemove s n).mmapKey = s.mmapKey := by
  unfold rbRemove
  split_ifs <;> exact mmapKey_use s n

/-- No step lowers the key. -/
theorem mmapKey_stepClosed :
    StepClosed (fun _ => True) fun s t => s.mmapKey ≤ t.mmapKey where
  zero := trivial
  refl _ := le_rfl
  trans := le_trans
  setEntry _ _ _ _ := le_rfl
  bumpKey s := Nat.le_succ s.mmapKey
  use s n := (mmapKey_use s n).ge
  insert s n := (mmapKey_rbInsert s n).ge
  remove s n := (mmapKey_rbRemove s n).ge
  freeNode _ _ := le_rfl
  takePage _ _ _ := le_rfl
  pool _ _ _ := le_rfl
  reuse _ := le_rfl

theorem insertEntry_key (fuel : ℕ) (e : MemoryMapEntry) (s : State) :
    (insertEntry T (fixOverlap T fuel) e s).Returns (KeyStep s) := by
  unfold insertEntry
  split
  · trivial
  · next n t halloc =>
    have hplace := mmapKey_stepClosed.place (e := e)
      (mmapKey_stepClosed.addEntry T fuel).1 trivial halloc
    generalize hr : rbInsert (t.setEntry n e) n = r at hplace ⊢
    dsimp only
    generalize (if r.1 ≠ 0 then placeOld (fixOverlap T fuel) e n r.1 r.2
      else placeNew (fixOverlap T fuel) n r.2) = o at hplace ⊢
    cases o with
    | returned u => exact KeyStep.of_lt (Nat.lt_succ_of_le hplace)
    | panicked m u => trivial
    | outOfFuel u => trivial

/-- The early returns of `mmap_add_entry` come after calls that count. -/
theorem mmapAddEntry_key (T : Target) (fuel : ℕ) (e : MemoryMapEntry) (s : State) :
    (mmapAddEntry T fuel e s).Returns (KeyStep s) := by
  induction fuel generalizing e s with
  | zero => trivial
  | succ fuel ih =>
    have hif : ∀ (c : Prop) [Decidable c] e s,
        (if c then Outcome.returned s else mmapAddEntry T fuel e s).Returns (KeyStep s) := by
      intro c _ e s
      split_ifs
      · exact KeyStep.refl s
      · exact ih e s
    rw [mmapAddEntry]
    unfold mmapAddEntryBody
    by_cases h₀ : e.size = 0
    · rw [if_pos h₀]
      exact KeyStep.refl s
    rw [if_neg h₀]
    refine (hif _ _ s).andThen fun t ht => ?_
    cases trimFront e with
    | none => exact ht
    | some e' =>
      refine (hif _ _ t).andThen fun u hu => ?_
      cases trimBack e' with
      | none => exact ht.trans hu
      | some e'' => exact (insertEntry_key fuel e'' u).mono fun v hv => (ht.trans hu).trans hv

theorem allocFrom_key {type : MemoryType} {n : ℕ} {mme : Ptr} {reply : AllocReply}
    (h : allocFrom T type n s mme = .ok reply) : KeyStep s reply.state := by
  unfold allocFrom at h
  dsimp only at h
  split_ifs at h
  · cases h
    exact .of_lt (Nat.lt_succ_of_le (mmapKey_stepClosed.mergeAdjacent (s.setEntry mme _) mme))
  · cases h
    exact .of_lt (Nat.lt_succ_self s.mmapKey)
  · cases h
    exact .refl s
  · cases h
    exact .of_lt (Nat.lt_succ_self s.mmapKey)
  · cases halloc : mmapAllocEntry T s with
    | error m =>
      rw [halloc] at h
      cases h
    | ok res =>
      rw [halloc] at h
      cases h
      have hslice := mmapKey_stepClosed.sliceNew res.2 mme res.1 type n
      have hkey := mmapKey_stepClosed.allocNode halloc
      exact .of_lt (Nat.lt_succ_of_le (hkey.trans hslice))

theorem gdAllocPages_key {type : MemoryType} {count : ℕ} {reply : AllocReply}
    (h : gdAllocPages T type count s = .ok reply) : KeyStep s reply.state := by
  unfold gdAllocPages at h
  split_ifs at h
  · cases h
    exact .refl s
  · rcases allocSearch_cases T type (Word.mul T.ptrBits count 4096) s s.tree with
      hnone | ⟨q, mme, r, -, -, -, -, -, heq⟩
    · rw [hnone] at h
      cases h
      exact .refl s
    · rw [heq] at h
      exact allocFrom_key h

/-- One call, with `mmap_clean` on an empty map only. -/
theorem Call.key {c : Call} {fuel : ℕ} (hclean : c = .clean → s.tree = []) :
    (c.run T fuel s).Returns (KeyStep s) := by
  cases c with
  | add entry => exact mmapAddEntry_key T fuel entry s
  | alloc type count =>
    simp only [Call.run]
    cases hcall : gdAllocPages T type count s with
    | error m => trivial
    | ok reply => exact gdAllocPages_key hcall
  | free startAddress count =>
    refine (mmapAddEntry_key T fuel _ _).andThen fun t ht => ?_
    exact ⟨ht.le, ht.same⟩
  | clean =>
    refine ⟨le_rfl, fun _ => ?_⟩
    change [] = s.tree.map s.entry
    rw [hclean rfl, List.map_nil]

end Steps

/-- Each page-aligned piece: it is added without a page for nodes and clobbers
nothing, or a page is taken for its node where that does no harm. -/
def OrderlyPieces (T : Target) (fuel : ℕ) : List MemoryMapEntry → State → Prop
  | [], _ => True
  | e :: es, s => (2 * capacity T s + 4 ≤ fuel ∧ ¬ Clobbers s e ∧
      (mmapAddEntry T fuel e s).state.refills = s.refills ∨ Steady T fuel [e] s) ∧
    (mmapAddEntry T fuel e s).Returns (OrderlyPieces T fuel es)

/-- The condition under which a call leaves the entries in order. -/
def Call.Orderly (T : Target) (fuel : ℕ) : Call → State → Prop
  | add entry, s => Fits entry ∧ OrderlyPieces T fuel (pieces entry) s
  | alloc type count, s => Call.Safe T fuel (.alloc type count) s
  | free startAddress count, s => Fits (freeEntry T startAddress count) ∧
    OrderlyPieces T fuel (pieces (freeEntry T startAddress count))
      { s with overlapPrecedence := freeOverlapPrecedence }
  | clean, _ => True

def OrderlyRun (T : Target) (fuel : ℕ) : List Call → State → Prop
  | [], _ => True
  | c :: cs, s => c.Orderly T fuel s ∧ (c.run T (fuel + 1) s).Returns (OrderlyRun T fuel cs)

section Order

variable {T : Target} {s t : State} {fuel : ℕ}

theorem addAll_orderly {es : List MemoryMapEntry} (h : WellFormed T s) (hgood : ∀ m ∈ es, Good m)
    (horder : OrderlyPieces T fuel es s) : (addAll T fuel es s).Ends (WellFormed T) := by
  induction es generalizing s with
  | nil => exact h
  | cons e es ih =>
    obtain ⟨hg, hes⟩ := List.forall_mem_cons.mp hgood
    have hpiece : (mmapAddEntry T fuel e s).Ends (WellFormed T) := by
      rcases horder.1 with ⟨hfuel, hclob, hnone⟩ | ⟨hfuel, hfine, hred, hnone, -⟩
      · exact ((addEntry_gains h hg hclob hfuel).ends hnone).mono fun t ht => ht.wellFormed
      · exact (addEntry_kept h hg hfuel hfine hred hnone).mono fun t ht => ht.wellFormed
    refine hpiece.andThen ?_
    intro t ht hwf
    have hrest := horder.2
    rw [ht] at hrest
    exact ih hwf hes hrest

theorem mmapAddEntry_orderly {e : MemoryMapEntry} (h : WellFormed T s) (hfits : Fits e)
    (horder : OrderlyPieces T fuel (pieces e) s) :
    (mmapAddEntry T (fuel + 1) e s).Ends (WellFormed T) :=
  (addAll_upTo T fuel hfits s).ends (addAll_orderly h (good_pieces hfits) horder)

theorem WellFormed.withTable {table : List MemoryType} (h : WellFormed T s) (ht : Complete table) :
    WellFormed T { s with overlapPrecedence := table } := by
  obtain ⟨free, ho⟩ := h.owned
  exact ⟨ht, ⟨free, ho.chain, ho.nodup, ho.null, ho.total⟩, h.tidy⟩

theorem Call.orderly {c : Call} (h : WellFormed T s) (horder : c.Orderly T fuel s) :
    (c.run T (fuel + 1) s).Ends (WellFormed T) := by
  cases c with
  | add entry => exact mmapAddEntry_orderly h horder.1 horder.2
  | alloc type count =>
    exact (Call.kept h (c := .alloc type count) horder).mono fun t ht => ht.wellFormed
  | free startAddress count =>
    have hadd := mmapAddEntry_orderly (h.withTable freeOverlapPrecedence_complete)
      horder.1 horder.2
    exact hadd.andThen fun t _ ht => ht.withTable h.complete
  | clean => exact (mmapClean_kept h).wellFormed

end Order

section Run

variable {T : Target} {fuel : ℕ} {calls : List Call} {s t : State}

theorem self_mem_visited (T : Target) (fuel : ℕ) (calls : List Call) (s : State) :
    s ∈ visited T fuel calls s := by
  cases calls with
  | nil => exact List.mem_singleton_self s
  | cons c cs => exact List.mem_cons_self

/-- Along a run the key detects changes. -/
theorem visited_keyStep (hclean : CleansEmpty T fuel calls s) :
    (visited T fuel calls s).Pairwise KeyStep ∧ ∀ t ∈ visited T fuel calls s, KeyStep s t := by
  induction calls generalizing s with
  | nil => simp [visited, KeyStep.refl]
  | cons c cs ih =>
    obtain ⟨hempty, hrest⟩ := hclean
    have hkey := @Call.key T s c fuel hempty
    rw [visited]
    cases hrun : c.run T fuel s with
    | returned u =>
      rw [hrun] at hrest hkey
      obtain ⟨hpair, hall⟩ := ih hrest
      have hfrom : ∀ t ∈ visited T fuel cs u, KeyStep s t := fun t ht => hkey.trans (hall t ht)
      exact ⟨List.pairwise_cons.mpr ⟨hfrom, hpair⟩,
        List.forall_mem_cons.mpr ⟨.refl s, hfrom⟩⟩
    | panicked m u => simp [KeyStep.refl]
    | outOfFuel u => simp [KeyStep.refl]

theorem visited_wellFormed (h : WellFormed T s) (horder : OrderlyRun T fuel calls s) :
    ∀ t ∈ visited T (fuel + 1) calls s, WellFormed T t := by
  induction calls generalizing s with
  | nil =>
    intro t ht
    rw [List.mem_singleton.mp ht]
    exact h
  | cons c cs ih =>
    obtain ⟨hc, hrest⟩ := horder
    have hwf := Call.orderly h hc
    rw [visited]
    refine List.forall_mem_cons.mpr ⟨h, ?_⟩
    cases hrun : c.run T (fuel + 1) s with
    | returned u =>
      rw [hrun] at hrest hwf
      exact ih hwf hrest
    | panicked m u => simp
    | outOfFuel u => simp

/-- Equal entries give equal reports. -/
theorem sameReport_of_entries (h : s.entries = t.entries) (tab tab' : ℕ → MemoryMapEntry)
    (n n' : ℕ) : SameReport (mmapGet T tab n s) (mmapGet T tab' n' t) n n' := by
  have hs := mmapGet_reports T s tab n
  have ht := mmapGet_reports T t tab' n'
  rw [← h] at ht
  have hneeded := hs.needed.trans ht.needed.symm
  refine ⟨hneeded, ?_⟩
  intro i hi
  have h₁ := hs.written i (by omega)
  have h₂ := ht.written i (by omega)
  exact Option.some.inj (h₁.symm.trans h₂)

theorem keyDetects_of_cleansEmpty
    (hkeys : ∀ t ∈ visited T fuel calls s, t.mmapKey < 2^T.ptrBits)
    (hclean : CleansEmpty T fuel calls s) : KeyDetects T (visited T fuel calls s) := by
  have hsymm : Std.Symm fun t u : State => t.mmapKey = u.mmapKey → t.entries = u.entries :=
    ⟨fun _ _ htu hkey => (htu hkey.symm).symm⟩
  have hpair : (visited T fuel calls s).Pairwise fun t u =>
      t.mmapKey = u.mmapKey → t.entries = u.entries :=
    (visited_keyStep hclean).1.imp fun htu hkey => (htu.same hkey.symm).symm
  intro t ht u hu tab tab' n n' hkey
  refine sameReport_of_entries ?_ tab tab' n n'
  have hmod : t.mmapKey % 2^T.ptrBits = u.mmapKey % 2^T.ptrBits := hkey
  rw [Nat.mod_eq_of_lt (hkeys t ht), Nat.mod_eq_of_lt (hkeys u hu)] at hmod
  exact List.Pairwise.forall_of_forall (fun _ _ _ => rfl) hpair ht hu hmod

/-- A `mmap_clean` that empties the map does not show in the key. -/
theorem cleansEmpty_of_keyDetects (h : KeyDetects T (visited T fuel calls s)) :
    CleansEmpty T fuel calls s := by
  induction calls generalizing s with
  | nil => trivial
  | cons c cs ih =>
    constructor
    · rintro rfl
      have hmem : mmapClean T s ∈ visited T fuel (.clean :: cs) s :=
        List.mem_cons_of_mem _ (self_mem_visited T fuel cs (mmapClean T s))
      have hsame := h s List.mem_cons_self _ hmem s.entry s.entry 0 0 rfl
      have h₁ := (mmapGet_reports T s s.entry 0).needed
      have h₂ := (mmapGet_reports T (mmapClean T s) s.entry 0).needed
      have hlen : s.entries.length = 0 := h₁.symm.trans (hsame.1.trans h₂)
      rw [State.entries, List.length_map] at hlen
      exact List.eq_nil_of_length_eq_zero hlen
    · rw [visited] at h
      cases hrun : c.run T fuel s with
      | returned u =>
        rw [hrun] at h
        refine ih fun t ht u' hu' => ?_
        exact h t (List.mem_cons_of_mem _ ht) u' (List.mem_cons_of_mem _ hu')
      | panicked m u => trivial
      | outOfFuel u => trivial

end Run

/-- Add sixteen pages and allocate two of them. -/
def allocTwo : List Call := [.add sixteenPages, .alloc .loaderData 2]

end Gandr.Mmap

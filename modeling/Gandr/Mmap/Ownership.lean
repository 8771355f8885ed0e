import Gandr.Mmap.PageTypes
import Gandr.Mmap.Refill

/-! Runs of all calls that change the map. As long as no call adds a range that
lies strictly inside a stronger entry, and no page is taken for nodes where it
does harm, every node has one owner and every tree operation is applied to a
linked node. -/

namespace Gandr.Mmap

/-- The calls of `bal/mmap.c` that change the map. -/
inductive Call where
  | add (entry : MemoryMapEntry)
  | alloc (type : MemoryType) (count : ℕ)
  | free (startAddress : Ptr) (count : ℕ)
  | clean

def Call.run (T : Target) (fuel : ℕ) : Call → State → Outcome
  | add entry, s => mmapAddEntry T fuel entry s
  | alloc type count, s =>
    match gdAllocPages T type count s with
    | .error message => .panicked message s
    | .ok reply => .returned reply.state
  | free startAddress count, s => gdFreePages T fuel startAddress count s
  | clean, s => .returned (mmapClean T s)

/-- The map a node is issued from, after the refill if there is one. -/
def readied (T : Target) (s : State) : State := if PoolReady s then s else refill T s s.tree

/-- If a page has to be taken for nodes, it is not at address 0 and no linked
node is in it. -/
def RefillFine (T : Target) (s : State) : Prop :=
  PoolReady s ∨ (NodesHeld T s ∧ ∀ e,
    s.tree.find? (fun k => decide ((s.entry k).type = .conventionalMemory)) = some e →
      (s.entry e).physicalStart ≠ 0 ∨ TakesLast s e)

/-- Each page-aligned piece of an added range: it lies strictly inside no
stronger entry, and no page is taken for nodes once its own node is issued. -/
def Steady (T : Target) (fuel : ℕ) : List MemoryMapEntry → State → Prop
  | [], _ => True
  | e :: es, s => 2 * capacity T (readied T s) + 4 ≤ fuel ∧ RefillFine T s ∧
    (∀ m ∈ (readied T s).entries, ¬ Redundant s.overlapPrecedence e m) ∧
    (mmapAddEntry T fuel e s).state.refills = (readied T s).refills ∧
    (mmapAddEntry T fuel e s).Returns (Steady T fuel es)

/-- The condition on a call, in the state it is made in. -/
def Call.Safe (T : Target) (fuel : ℕ) : Call → State → Prop
  | add entry, s => Fits entry ∧ Steady T fuel (pieces entry) s
  | alloc type count, s => ∀ reply, gdAllocPages T type count s = .ok reply →
    reply.state.refills = s.refills ∨
      (NodesHeld T s ∧ RefillClear s (Word.mul T.ptrBits count 4096))
  | free startAddress count, s => Fits (freeEntry T startAddress count) ∧
    Steady T fuel (pieces (freeEntry T startAddress count))
      { s with overlapPrecedence := freeOverlapPrecedence }
  | clean, _ => True

/-- The states reached from the initial one by calls that meet the condition. -/
inductive Reached (T : Target) : State → Prop
  | start : Reached T (State.initial T)
  | call {s s' : State} {c : Call} {fuel : ℕ} (h : Reached T s) (safe : c.Safe T fuel s)
      (returned : c.run T (fuel + 1) s = .returned s') : Reached T s'

/-- Linked nodes, free nodes and slots not yet issued are apart, the free list
is finite and without repetition, and no tree operation met an unlinked node. -/
structure NodesOwned (T : Target) (s : State) : Prop where
  owned : ∃ free, Owned T s [] free
  linked : s.staleCalls = 0

/-- The call panicked, or it returned and `Q` holds. -/
def Outcome.Ends (o : Outcome) (Q : State → Prop) : Prop :=
  match o with
  | .returned s => Q s
  | .panicked _ _ => True
  | .outOfFuel _ => False

/-- A panic of the call has a message that `ok` accepts. -/
def Outcome.Panics (o : Outcome) (ok : String → Prop) : Prop := ∀ m t, o = .panicked m t → ok m

namespace Outcome

variable {o o' : Outcome} {Q R : State → Prop} {s : State}

theorem Ends.mono (h : o.Ends Q) (hqr : ∀ t, Q t → R t) : o.Ends R := by
  cases o with
  | returned t => exact hqr t h
  | panicked m t => trivial
  | outOfFuel t => exact h

theorem Ends.andThen {f : State → Outcome} (h : o.Ends Q) (hf : ∀ t, o = .returned t → Q t →
    (f t).Ends R) : (o.andThen f).Ends R := by
  cases o with
  | returned t => exact hf t rfl h
  | panicked m t => trivial
  | outOfFuel t => exact h

theorem Panics.andThen {f : State → Outcome} {ok : String → Prop} (h : o.Panics ok)
    (hf : ∀ t, o = .returned t → (f t).Panics ok) : (o.andThen f).Panics ok := by
  cases o with
  | returned t => exact hf t rfl
  | panicked m t => exact h
  | outOfFuel t => exact h

theorem UpTo.ends (h : o.UpTo o') (ho : o.Ends Q) : o'.Ends Q := by
  rcases h with rfl | ⟨u, rfl, -⟩
  · exact ho
  · exact ho.elim

end Outcome

theorem EndsIn.ends {ok : String → Prop} {s : State} {Q : State → Prop} {o : Outcome}
    (h : EndsIn ok s Q o) (hr : o.state.refills = s.refills) : o.Ends Q := by
  cases h with
  | returned h => exact h hr
  | panicked h => trivial
  | outOfFuel h => exact h hr

theorem EndsIn.panics {ok : String → Prop} {s : State} {Q : State → Prop} {o : Outcome}
    (h : EndsIn ok s Q o) (hr : o.state.refills = s.refills) : o.Panics ok := by
  rintro m t rfl
  cases h with
  | panicked h => exact h hr

/-- What every call keeps. -/
structure Kept (T : Target) (s s' : State) : Prop where
  wellFormed : WellFormed T s'
  table : s'.overlapPrecedence = s.overlapPrecedence
  stale : s'.staleCalls = s.staleCalls

theorem Kept.refl {T : Target} {s : State} (h : WellFormed T s) : Kept T s s := ⟨h, rfl, rfl⟩

theorem Kept.trans {T : Target} {s t u : State} (h : Kept T s t) (h' : Kept T t u) : Kept T s u :=
  ⟨h'.wellFormed, h'.table.trans h.table, h'.stale.trans h.stale⟩

section Add

variable {T : Target} {s s₂ : State} {n : Ptr} {e : MemoryMapEntry} {fuel : ℕ}

/-- The map is well formed when the node is issued. -/
theorem readied_kept (h : WellFormed T s) (hfine : RefillFine T s)
    (hcall : mmapAllocEntry T s = .ok (n, s₂)) :
    Kept T s (readied T s) ∧ (∃ free, Owned T s₂ [n] free) ∧ Quiet (readied T s) s₂ ∧
      s₂.tree = (readied T s).tree ∧ s₂.entry = (readied T s).entry := by
  obtain ⟨free, ho⟩ := h.owned
  by_cases hpool : PoolReady s
  · obtain ⟨n', s', free', halloc, hown, htree, hentry, -, -, hquiet⟩ :=
      mmapAllocEntry_pool ho hpool
    rw [halloc] at hcall
    cases hcall
    rw [readied, if_pos hpool]
    exact ⟨.refl h, ⟨free', hown⟩, hquiet, htree, hentry⟩
  · obtain ⟨hf, hk⟩ := not_poolReady hpool
    obtain ⟨hheld, hnull⟩ := hfine.resolve_left hpool
    obtain ⟨q, k, r, hc, hfirst, htaken, heq, rfl, rfl⟩ := mmapAllocEntry_dry h hf hk hcall
    rw [readied, if_neg hpool, heq]
    obtain ⟨hcarved, hk', -⟩ := (hc.refilled hf hheld
      (hc.nodePage_ne_zero (hnull k (hc.find hfirst)))).resolve_left htaken
    obtain ⟨free', ho'⟩ := hcarved.wellFormed.owned
    exact ⟨⟨hcarved.wellFormed, hcarved.table, hcarved.stale⟩, ⟨free', ho'.issue hk'⟩,
      ⟨rfl, rfl, rfl⟩, rfl, rfl⟩

/-- One page-aligned piece, with the entries that are left. -/
theorem addEntry_readied (h : WellFormed T s) (hg : Good e)
    (hfuel : 2 * capacity T (readied T s) + 4 ≤ fuel) (hfine : RefillFine T s)
    (hred : ∀ m ∈ (readied T s).entries, ¬ Redundant s.overlapPrecedence e m)
    (hnone : (mmapAddEntry T fuel e s).state.refills = (readied T s).refills) :
    (mmapAddEntry T fuel e s).Ends (fun u => Kept T s u ∧
      addTo s.overlapPrecedence e (readied T s).entries = some u.entries) ∧
    (mmapAddEntry T fuel e s).Panics
      (PanicsAs (addTo s.overlapPrecedence e (readied T s).entries)) := by
  obtain ⟨fuel, rfl⟩ : ∃ j, fuel = j + 1 := ⟨fuel - 1, by omega⟩
  rw [mmapAddEntry_aligned T fuel hg] at hnone ⊢
  unfold insertEntry at hnone ⊢
  cases hcall : mmapAllocEntry T s with
  | error m =>
    refine ⟨trivial, ?_⟩
    intro m' t heq
    obtain ⟨rfl, -⟩ := Outcome.panicked.inj heq
    exact .inl (mmapAllocEntry_error hcall).2
  | ok res =>
    obtain ⟨n, s₂⟩ := res
    rw [hcall] at hnone
    obtain ⟨hkept, ⟨free, ho⟩, hquiet, htree, hentry⟩ := readied_kept h hfine hcall
    obtain ⟨free', ho'⟩ := hkept.wellFormed.owned
    have hi : Issued T (readied T s) (s₂.setEntry n e) n e := by
      refine ⟨⟨hquiet.table, hquiet.pages, hquiet.stale⟩, ⟨free, ho.setEntry n e⟩, htree, ?_⟩
      rw [← hentry]
      rfl
    have hfuel' : 2 * (readied T s).tree.length + 3 ≤ fuel := by
      have := ho'.length_tree
      omega
    have hplace := place_spec (addSpec T (readied T s).tree.length).1 hfuel'
      (List.length_filter_le _ _)
      (⟨hkept.wellFormed.complete, hkept.wellFormed.owned, rfl, hg, hkept.wellFormed.tidy,
        by simp, .inl rfl⟩ : AddPre T (readied T s) [] (readied T s).tree e)
      (fun m hm => hkept.table ▸ hred _ (List.mem_map_of_mem hm)) hi
    rw [hkept.table] at hplace
    have hsame : ∀ o : Outcome, (o.andThen fun t => .returned t.bumpKey).state.refills =
        o.state.refills := by
      intro o
      cases o <;> rfl
    have hnone' : (place (fixOverlap T fuel) e n (s₂.setEntry n e)).state.refills =
        (s₂.setEntry n e).refills :=
      (hsame _).symm.trans (hnone.trans (congrArg List.length hquiet.pages).symm)
    refine ⟨Outcome.Ends.andThen (hplace.ends hnone') ?_,
      Outcome.Panics.andThen (hplace.panics hnone') (by rintro t - m u heq; cases heq)⟩
    rintro t - ⟨post', ha⟩
    obtain ⟨free'', ho''⟩ := ha.owned
    have htree' : t.tree = post' := ha.tree
    refine ⟨hkept.trans ⟨⟨?_, ⟨free'', ho''.bumpKey⟩, ?_⟩, ha.table, ha.stale⟩, ?_⟩
    · change Complete t.overlapPrecedence
      rw [ha.table]
      exact hkept.wellFormed.complete
    · change Tidy (t.tree.map t.entry)
      rw [htree']
      exact ha.tidy
    · rw [← hkept.table]
      change _ = some (t.tree.map t.entry)
      rw [htree']
      exact ha.list

theorem addEntry_kept (h : WellFormed T s) (hg : Good e)
    (hfuel : 2 * capacity T (readied T s) + 4 ≤ fuel) (hfine : RefillFine T s)
    (hred : ∀ m ∈ (readied T s).entries, ¬ Redundant s.overlapPrecedence e m)
    (hnone : (mmapAddEntry T fuel e s).state.refills = (readied T s).refills) :
    (mmapAddEntry T fuel e s).Ends (Kept T s) :=
  (addEntry_readied h hg hfuel hfine hred hnone).1.mono fun _ hu => hu.1

/-- The pieces of a range, one after the other. -/
theorem addAll_kept {es : List MemoryMapEntry} (h : WellFormed T s) (hgood : ∀ m ∈ es, Good m)
    (hsteady : Steady T fuel es s) : (addAll T fuel es s).Ends (Kept T s) := by
  induction es generalizing s with
  | nil => exact .refl h
  | cons e es ih =>
    obtain ⟨hg, hes⟩ := List.forall_mem_cons.mp hgood
    obtain ⟨hfuel, hfine, hred, hnone, hrest⟩ := hsteady
    refine (addEntry_kept h hg hfuel hfine hred hnone).andThen ?_
    intro t ht hkept
    rw [ht] at hrest
    exact (ih hkept.wellFormed hes hrest).mono fun u hu => hkept.trans hu

theorem mmapAddEntry_kept (h : WellFormed T s) (hfits : Fits e)
    (hsteady : Steady T fuel (pieces e) s) : (mmapAddEntry T (fuel + 1) e s).Ends (Kept T s) :=
  (addAll_upTo T fuel hfits s).ends (addAll_kept h (good_pieces hfits) hsteady)

theorem gdFreePages_kept {startAddress : Ptr} {count : ℕ} (h : WellFormed T s)
    (hfits : Fits (freeEntry T startAddress count))
    (hsteady : Steady T fuel (pieces (freeEntry T startAddress count))
      { s with overlapPrecedence := freeOverlapPrecedence }) :
    (gdFreePages T (fuel + 1) startAddress count s).Ends (Kept T s) := by
  obtain ⟨free, ho⟩ := h.owned
  have hswap : WellFormed T { s with overlapPrecedence := freeOverlapPrecedence } :=
    ⟨freeOverlapPrecedence_complete, ⟨free, ho.chain, ho.nodup, ho.null, ho.total⟩, h.tidy⟩
  refine (mmapAddEntry_kept hswap hfits hsteady).andThen ?_
  intro t _ hkept
  obtain ⟨free', ho'⟩ := hkept.wellFormed.owned
  exact ⟨⟨h.complete, ⟨free', ho'.chain, ho'.nodup, ho'.null, ho'.total⟩, hkept.wellFormed.tidy⟩,
    rfl, hkept.stale⟩

end Add

section Alloc

variable {T : Target} {s : State} {type : MemoryType} {n : ℕ} {reply : AllocReply}

/-- A node that is issued and not linked is lost. -/
theorem Owned.lost {n : Ptr} {hand free : List Ptr} (h : Owned T s (n :: hand) free) :
    Owned T s hand free := by
  have hsub : (s.tree ++ hand ++ free ++ slots T s).Sublist
      (s.tree ++ n :: hand ++ free ++ slots T s) := by
    simp only [List.append_assoc]
    exact (List.Sublist.refl _).append (List.sublist_cons_self ..)
  exact ⟨h.chain, h.nodup.sublist hsub, fun h0 => h.null (hsub.mem h0), hsub.length_le.trans h.total⟩

theorem setEntry_self (s : State) (n : Ptr) : s.setEntry n (s.entry n) = s := by
  rw [State.setEntry, Function.update_eq_self]

theorem dropFront_zero {e : MemoryMapEntry} (h : Good e) : dropFront e 0 = e := by
  have hfits := h.fits
  have hstart : Word.add 64 e.physicalStart 0 = e.physicalStart := Word.add_of_lt (by omega)
  have hsize : Word.sub 64 e.size 0 = e.size := Word.sub_of_le (by omega) (by omega)
  rw [dropFront, hstart, hsize]

/-- A request whose size wraps to 0 takes nothing: its node has the start of
`mme` and is not linked. -/
theorem sliceNew_zero {s₁ : State} {mme new : Ptr} {free : List Ptr} (h : WellFormed T s)
    (ho : Owned T s₁ [new] free) (hquiet : Quiet s s₁) (htree : s₁.tree = s.tree)
    (hentry : s₁.entry = s.entry) (hm : mme ∈ s.tree) :
    Kept T s (sliceNew s₁ mme new type 0).bumpKey := by
  obtain ⟨q, r, hq⟩ := List.append_of_mem hm
  have hnew : new ∉ s.tree := htree ▸ ho.fresh.2.1
  have hg : Good (s.entry mme) := h.tidy.good _ (List.mem_map_of_mem hm)
  generalize hc : ({ s₁.entry new with
    type := type
    physicalStart := (s₁.entry mme).physicalStart
    size := 0
    attributes := (s₁.entry mme).attributes } : MemoryMapEntry) = c
  have hkeep : ∀ k ∈ s.tree, (s₁.setEntry new c).entry k = s.entry k := by
    intro k hk
    rw [← hentry]
    exact update_of_mem hnew hk
  have hstep : (s₁.setEntry new c).setEntry mme (dropFront ((s₁.setEntry new c).entry mme) 0) =
      s₁.setEntry new c := by
    rw [hkeep mme hm, dropFront_zero hg, ← hkeep mme hm, setEntry_self]
  have hins : rbInsert (s₁.setEntry new c) new = (mme, s₁.setEntry new c) := by
    have hnewstart : ((s₁.setEntry new c).entry new).physicalStart =
        (s.entry mme).physicalStart := by
      have hself : (s₁.setEntry new c).entry new = c := Function.update_self ..
      rw [hself, ← hc, hentry]
    refine rbInsert_old (htree.trans hq) ?_ ?_
    · intro k hk
      rw [hkeep k (by simp [hq, hk]), hnewstart]
      have ht := h.tidy
      rw [State.entries, hq, List.map_append, tidy_append] at ht
      have hb := ht.2.2 _ (List.mem_map_of_mem hk) (s.entry mme) (by simp)
      have hgk := (ht.1.good _ (List.mem_map_of_mem hk)).nonempty
      unfold Before at hb
      omega
    · rw [hkeep mme hm, hnewstart]
  have heq : sliceNew s₁ mme new type 0 = s₁.setEntry new c := by
    simp only [sliceNew, hc, hstep, hins]
  rw [heq]
  refine ⟨⟨?_, ⟨free, (ho.setEntry _ _).lost.bumpKey⟩, ?_⟩, hquiet.table, hquiet.stale⟩
  · change Complete s₁.overlapPrecedence
    rw [hquiet.table]
    exact h.complete
  · change Tidy (s₁.tree.map (s₁.setEntry new c).entry)
    rw [htree, List.map_congr_left hkeep]
    exact h.tidy

/-- A clear refill is a fine one, and it links no node. -/
theorem RefillClear.fine {new : Ptr} {s₁ : State} (hwf : WellFormed T s)
    (hheld : NodesHeld T s) (hclear : RefillClear s 0) (hpool : ¬ PoolReady s)
    (hcall : mmapAllocEntry T s = .ok (new, s₁)) :
    RefillFine T s ∧ (readied T s).tree = s.tree := by
  obtain ⟨e, hfind, hnull, hroom⟩ := hclear
  obtain ⟨hf, hk⟩ := not_poolReady hpool
  obtain ⟨q, k, r, hc, hfirst, htaken, heq, -⟩ := mmapAllocEntry_dry hwf hf hk hcall
  obtain rfl : k = e := Option.some.inj ((hc.find hfirst).symm.trans hfind)
  refine ⟨.inr ⟨hheld, ?_⟩, ?_⟩
  · intro e he
    obtain rfl : k = e := Option.some.inj (hfind.symm.trans he)
    exact hnull
  · rw [readied, if_neg hpool, heq]
    exact (hc.refillFrom_last (hroom (Nat.zero_le _)).1 htaken).1

theorem allocSearch_zero (hwf : WellFormed T s)
    (hcall : allocSearch T type 0 s s.tree = .ok reply)
    (hsafe : reply.state.refills = s.refills ∨ (NodesHeld T s ∧ RefillClear s 0)) :
    Kept T s reply.state := by
  obtain ⟨free, ho⟩ := hwf.owned
  have hkey : Kept T s s.bumpKey := ⟨⟨hwf.complete, ⟨free, ho.bumpKey⟩, hwf.tidy⟩, rfl, rfl⟩
  rcases allocSearch_cases T type 0 s s.tree with
    hnone | ⟨q, mme, r, htree, -, -, -, -, heq⟩
  · rw [hnone] at hcall
    cases hcall
    exact .refl hwf
  have hm : mme ∈ s.tree := by simp [htree]
  have hg : ∀ k ∈ s.tree, Good (s.entry k) := fun k hk => hwf.tidy.good _ (List.mem_map_of_mem hk)
  rw [heq] at hcall
  unfold allocFrom at hcall
  dsimp only at hcall
  split_ifs at hcall with h₁ h₂ h₃ h₄
  · exact absurd h₁ (hg mme hm).nonempty.ne'
  · cases hcall
    obtain ⟨q', p, rfl, hp, -, -⟩ := hwf.prevFits htree h₂
    have hsize : Word.add 64 (s.entry p).size 0 = (s.entry p).size :=
      Word.add_of_lt (by have := (hg p (by simp [htree])).fits; omega)
    have hent : ({ s.entry p with size := Word.add 64 (s.entry p).size 0 } : MemoryMapEntry) =
        s.entry p := by rw [hsize]
    have hsame : slicePrev s mme p 0 = s := by
      simp only [slicePrev, hent, setEntry_self, dropFront_zero (hg mme hm)]
    rw [hp, hsame]
    exact hkey
  · cases hcall
    exact .refl hwf
  · cases hcall
    obtain ⟨nx, r', rfl, hx, -, -⟩ := hwf.nextFits htree h₃
    have hgx := (hg nx (by simp [htree])).fits
    have hgm := (hg mme hm).fits
    have hsize : Word.add 64 (s.entry nx).size 0 = (s.entry nx).size :=
      Word.add_of_lt (by omega)
    have hstart : Word.sub 64 (s.entry nx).physicalStart 0 = (s.entry nx).physicalStart :=
      Word.sub_of_le (by omega) (by omega)
    have hrest : Word.sub 64 (s.entry mme).size 0 = (s.entry mme).size :=
      Word.sub_of_le (by omega) (by omega)
    have hent : ({ s.entry nx with
        size := Word.add 64 (s.entry nx).size 0
        physicalStart := Word.sub 64 (s.entry nx).physicalStart 0 } : MemoryMapEntry) =
        s.entry nx := by rw [hsize, hstart]
    have hent' : ({ s.entry mme with size := Word.sub 64 (s.entry mme).size 0 } :
        MemoryMapEntry) = s.entry mme := by rw [hrest]
    have hsame : sliceNext s mme nx 0 = s := by
      simp only [sliceNext, hent, setEntry_self, hent']
    rw [hx, hsame]
    exact hkey
  · cases halloc : mmapAllocEntry T s with
    | error m =>
      rw [halloc] at hcall
      cases hcall
    | ok res =>
      obtain ⟨new, s₁⟩ := res
      rw [halloc] at hcall
      cases hcall
      have hfine : RefillFine T s ∧ (readied T s).tree = s.tree := by
        by_cases hpool : PoolReady s
        · exact ⟨.inl hpool, by rw [readied, if_pos hpool]⟩
        · refine RefillClear.fine hwf (hsafe.resolve_left ?_).1 (hsafe.resolve_left ?_).2 hpool halloc
          all_goals
            change (sliceNew _ _ _ _ _).bumpKey.refills ≠ _
            rw [refills_bumpKey, refills_sliceNew, refills_mmapAllocEntry halloc,
              if_pos (not_poolReady hpool)]
            omega
      obtain ⟨hkept, ⟨free', ho'⟩, hquiet, htree', hentry⟩ := readied_kept hwf hfine.1 halloc
      exact hkept.trans (sliceNew_zero hkept.wellFormed ho' hquiet htree' hentry
        (by rw [hfine.2]; exact hm))

/-- `gd_alloc_pages`, whatever it is asked for. -/
theorem gdAllocPages_kept {count : ℕ} (hwf : WellFormed T s)
    (hcall : gdAllocPages T type count s = .ok reply)
    (hsafe : reply.state.refills = s.refills ∨
      (NodesHeld T s ∧ RefillClear s (Word.mul T.ptrBits count 4096))) :
    Kept T s reply.state := by
  unfold gdAllocPages at hcall
  split_ifs at hcall with hcount
  · cases hcall
    exact .refl hwf
  generalize hn : Word.mul T.ptrBits count 4096 = n at *
  rcases Nat.eq_zero_or_pos n with rfl | hpos
  · exact allocSearch_zero hwf hcall hsafe
  have hal : n % 4096 = 0 := by
    have hlt : 2^12 < 2^T.ptrBits := T.page_lt
    have hdvd : 2^12 ∣ 2^T.ptrBits :=
      pow_dvd_pow 2 ((Nat.pow_lt_pow_iff_right (by decide)).mp hlt).le
    change n % 2^12 = 0
    rw [← hn, Word.mul, Nat.mod_mod_of_dvd _ hdvd]
    exact Nat.mul_mod_left count 4096
  rcases allocSearch_spec hwf hpos hal with
    hnone | ⟨a, s', hr, ha, -⟩ | ⟨hpool, herr | ⟨a, s', hr, hrefills⟩⟩
  · rw [hnone] at hcall
    cases hcall
    exact .refl hwf
  · rw [hr] at hcall
    cases hcall
    exact ⟨ha.wellFormed, ha.table, ha.stale⟩
  · rw [herr] at hcall
    cases hcall
  · obtain ⟨hf, hk⟩ := not_poolReady hpool
    have hcall' := hr
    rw [hr] at hcall
    cases hcall
    have hne : s'.refills ≠ s.refills := by omega
    obtain ⟨hheld, hclear⟩ := hsafe.resolve_left hne
    obtain ⟨mme, e, q, q', l, l', h⟩ := allocSearch_refilling hwf hf hk hpos hal hcall'
      fun hp => hne (congrArg List.length hp)
    have hs := h.safe hf hheld hclear
    exact ⟨hs.wellFormed, hs.table, hs.stale⟩

theorem mmapClean_kept (h : WellFormed T s) : Kept T s (mmapClean T s) :=
  ⟨⟨h.complete, ⟨[], .static rfl rfl rfl rfl⟩, tidy_nil⟩, rfl, rfl⟩

end Alloc

/-- Every call that meets the condition keeps the map well formed. -/
theorem Call.kept {T : Target} {s : State} {c : Call} {fuel : ℕ} (h : WellFormed T s)
    (hsafe : c.Safe T fuel s) : (c.run T (fuel + 1) s).Ends (Kept T s) := by
  cases c with
  | add entry => exact mmapAddEntry_kept h hsafe.1 hsafe.2
  | alloc type count =>
    simp only [Call.run]
    cases hcall : gdAllocPages T type count s with
    | error m => trivial
    | ok reply => exact gdAllocPages_kept h hcall (hsafe reply hcall)
  | free startAddress count => exact gdFreePages_kept h hsafe.1 hsafe.2
  | clean => exact mmapClean_kept h

theorem Reached.kept {T : Target} {s : State} (h : Reached T s) :
    WellFormed T s ∧ s.staleCalls = 0 := by
  induction h with
  | start => exact ⟨initial_wellFormed T, rfl⟩
  | call _ safe returned ih =>
    have hkept := Call.kept ih.1 safe
    rw [returned] at hkept
    exact ⟨hkept.wellFormed, hkept.stale.trans ih.2⟩

/-- Sixteen pages of conventional memory. -/
def sixteenPages : MemoryMapEntry :=
  { type := .conventionalMemory, physicalStart := 0x100000, size := 0x10000 }

end Gandr.Mmap

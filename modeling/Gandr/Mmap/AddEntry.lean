import Gandr.Mmap.Overlap

/-! `mmap_add_entry` on an aligned entry: the node is issued, placed among the
entries, and the neighbours are fixed up and merged. -/

namespace Gandr.Mmap

/-- The state after a node was issued for `e` and filled. -/
structure Issued (T : Target) (s s' : State) (newent : Ptr) (e : MemoryMapEntry) : Prop
    extends Quiet s s' where
  owned : ∃ free, Owned T s' [newent] free
  tree : s'.tree = s.tree
  entry : s'.entry = Function.update s.entry newent e

/-- What placing leaves of the nodes `l₁ ++ l₂` behind `pre`. -/
structure Placed (T : Target) (s s' : State) (pre l₁ l₂ post' : List Ptr) : Prop
    extends Leaves T s s' pre ((l₁ ++ l₂).map s.entry) post' where
  lower : ∀ b, (∀ m ∈ l₁ ++ l₂, b ≤ (s.entry m).physicalStart) →
    ∀ m ∈ post', b ≤ (s'.entry m).physicalStart
  head : ∀ h t, l₁ = h :: t →
    ∃ t', post' = h :: t' ∧ (s'.entry h).physicalStart = (s.entry h).physicalStart

section Insert

variable {T : Target} {s : State} {e : MemoryMapEntry} {fix : Ptr → State → Outcome}

/-- An aligned entry is inserted as it is. -/
theorem mmapAddEntry_whole (T : Target) (fuel : ℕ) (h₁ : e.physicalStart % 4096 = 0)
    (h₂ : e.size % 4096 = 0) (h₃ : 0 < e.size) (s : State) :
    mmapAddEntry T (fuel + 1) e s = insertEntry T (fixOverlap T fuel) e s := by
  have hf : trimFront e = some e := by simp [trimFront, h₁]
  have hb : trimBack e = some e := by simp [trimBack, h₂]
  simp [mmapAddEntry, mmapAddEntryBody, h₁, h₂, h₃.ne', hf, hb, Outcome.andThen]

theorem mmapAddEntry_aligned (T : Target) (fuel : ℕ) (h : Good e) (s : State) :
    mmapAddEntry T (fuel + 1) e s = insertEntry T (fixOverlap T fuel) e s :=
  mmapAddEntry_whole T fuel h.startAligned h.sizeAligned h.nonempty s

/-- The part of `mmap_add_entry` after the node is filled. -/
def place (fix : Ptr → State → Outcome) (e : MemoryMapEntry) (newent : Ptr) (s : State) : Outcome :=
  let r := rbInsert s newent
  if r.1 ≠ 0 then placeOld fix e newent r.1 r.2 else placeNew fix newent r.2

/-- A node is issued and filled without taking a page. -/
theorem insertEntry_pool {free : List Ptr} (ho : Owned T s [] free) (hpool : PoolReady s) :
    ∃ n s', Issued T s s' n e ∧ s'.lastFreed = s.nextFree ∧
      insertEntry T fix e s = (place fix e n s').andThen fun u => .returned u.bumpKey := by
  obtain ⟨n, t, free', halloc, hown, htree, hentry, hlast, -, hq⟩ := mmapAllocEntry_pool ho hpool
  refine ⟨n, t.setEntry n e, ⟨⟨hq.table, hq.pages, hq.stale⟩, ⟨free', hown.setEntry n e⟩, htree, ?_⟩,
    hlast, ?_⟩
  · rw [← hentry]
    rfl
  · simp only [insertEntry, halloc, place]

theorem place_monotone (hfix : ∀ n, Monotone (fix n)) (n : Ptr) : Monotone (place fix e n) := by
  intro t
  refine le_trans (le_of_eq (refills_rbInsert t n).symm) ?_
  unfold place
  dsimp only
  split_ifs
  · exact placeOld_monotone hfix _ _ _ _
  · exact placeNew_monotone hfix _ _

/-- Without a node in the pool, the call panics or takes a page. -/
theorem insertEntry_dry (hpool : ¬ PoolReady s) (hfix : ∀ n, Monotone (fix n)) :
    insertEntry T fix e s = .panicked "Out of memory" s ∨
      s.refills < (insertEntry T fix e s).state.refills := by
  unfold insertEntry
  cases halloc : mmapAllocEntry T s with
  | error m =>
    rw [(mmapAllocEntry_error halloc).2]
    exact .inl rfl
  | ok res =>
    obtain ⟨n, t⟩ := res
    have ht : s.refills < (t.setEntry n e).refills := by
      rw [refills_setEntry, refills_mmapAllocEntry halloc, if_pos (not_poolReady hpool)]
      omega
    exact .inr (lt_of_lt_of_le ht (le_andThen (place_monotone hfix n _) (fun u => le_rfl)))

theorem insertEntry_endsIn {ok : String → Prop} {free : List Ptr} {Q : State → Prop}
    (hok : ok "Out of memory") (ho : Owned T s [] free)
    (hfix : ∀ n, Monotone (fix n)) (hQ : ∀ t, Q t → Q t.bumpKey)
    (hplace : ∀ newent s', Issued T s s' newent e → s'.lastFreed = s.nextFree →
      EndsIn ok s' Q (place fix e newent s')) :
    EndsIn ok s Q (insertEntry T fix e s) := by
  by_cases hpool : PoolReady s
  · obtain ⟨n, t, hi, hlast, heq⟩ := insertEntry_pool (e := e) ho hpool
    have hrefills : t.refills = s.refills := congrArg List.length hi.pages
    rw [heq]
    refine EndsIn.andThen ((hplace n t hi hlast).congr hrefills) ?_ (fun u => le_rfl)
      (fun u _ hu => .returned fun _ => hQ u hu)
    rw [← hrefills]
    exact place_monotone hfix n t
  · rcases insertEntry_dry hpool hfix with hpanic | hlt
    · rw [hpanic]
      exact .panicked fun _ => hok
    · exact .of_lt hlt

theorem Issued.fresh {s' : State} {n : Ptr} (h : Issued T s s' n e) : n ∉ s.tree := by
  obtain ⟨free, ho⟩ := h.owned
  rw [← h.tree]
  exact ho.fresh.2.1

theorem Issued.entry_of_mem {s' : State} {n m : Ptr} (h : Issued T s s' n e) (hm : m ∈ s.tree) :
    s'.entry m = s.entry m := by
  rw [h.entry]
  exact update_of_mem h.fresh hm

theorem Issued.entry_self {s' : State} {n : Ptr} (h : Issued T s s' n e) : s'.entry n = e := by
  rw [h.entry, Function.update_self]

end Insert

section PlaceNew

variable {T : Target} {s : State} {pre l₁ l₂ : List Ptr} {n : Ptr} {fix : Ptr → State → Outcome}

/-- `merge_adjacent` as the last step of placing. -/
theorem placed_of_merged {s u v : State} {q r l : List Ptr} {mid : Ptr}
    (hl : Leaves T s u pre ((l₁ ++ l₂).map s.entry) (q ++ mid :: r))
    (hlower : ∀ b, (∀ m ∈ l₁ ++ l₂, b ≤ (s.entry m).physicalStart) →
      ∀ m ∈ q ++ mid :: r, b ≤ (u.entry m).physicalStart)
    (hhead : ∀ h t, l₁ = h :: t →
      (∃ t', q = h :: t') ∧ (u.entry h).physicalStart = (s.entry h).physicalStart)
    (hm : Merged T u v pre (q ++ mid :: r) l)
    (hml : ∀ a t, q = a :: t → ∃ t', l = a :: t') :
    Placed T s v pre l₁ l₂ l := by
  refine ⟨hl.trans hm.toLeaves, ?_, ?_⟩
  · intro b hb m hmem
    rw [hm.start m]
    exact hlower b hb m (hm.sub m hmem)
  · intro h t hht
    obtain ⟨⟨t', hq⟩, hs⟩ := hhead h t hht
    obtain ⟨t'', ht''⟩ := hml h t' hq
    exact ⟨t'', ht'', (hm.start h).trans hs⟩

/-- After `newent` is fixed against the entries behind it, the entry in front
is fixed against it and the neighbours are merged. -/
theorem placeNew_endsIn {ok : String → Prop} (hhead : pre = [] ∨ l₁ ≠ [])
    (htidy : Tidy (l₁.map s.entry))
    (hbelow : ∀ m ∈ l₁, (s.entry m).physicalStart < (s.entry n).physicalStart)
    (habove : ∀ m ∈ l₂, (s.entry n).physicalStart < (s.entry m).physicalStart)
    (hmono : ∀ n, Monotone (fix n)) (hnull : ∀ t, fix 0 t = .returned t)
    (hnew : EndsIn ok s (fun t => ∃ l₂', Settled T s t (pre ++ l₁) n l₂ l₂') (fix n s))
    (hprev : ∀ t l₂' l p, l₁ = l ++ [p] → Settled T s t (pre ++ l₁) n l₂ l₂' →
      EndsIn ok t (fun u => ∃ r, Settled T t u (pre ++ l) p (n :: l₂') (n :: r)) (fix p t)) :
    EndsIn ok s (fun u => ∃ post', Placed T s u pre l₁ (n :: l₂) post' ∧
      between s.overlapPrecedence (l₁.map s.entry) (s.entry n) (l₂.map s.entry) =
        some (post'.map u.entry)) (placeNew fix n s) := by
  unfold placeNew
  refine hnew.andThen (hmono n s) (fun t => le_andThen (hmono _ t) (merge_monotone n)) ?_
  rintro t ht ⟨l₂', hfix⟩
  obtain ⟨free', hot⟩ := hfix.owned
  have htt : t.tree = pre ++ (l₁ ++ n :: l₂') := by simpa using hfix.tree
  rcases List.eq_nil_or_concat l₁ with hnil | ⟨l, p, hcat⟩
  · -- nothing in front
    subst hnil
    obtain rfl : pre = [] := by simpa using hhead
    have hp : rbPrev t n = 0 := rbPrev_head hot (by simpa using htt)
    rw [hp, hnull]
    refine .returned fun _ => ?_
    obtain ⟨l', hm, hml⟩ := mergeAdjacent_merged hot
      (by simpa using htt : t.tree = [] ++ ([] ++ n :: l₂')) (.inl rfl) (by simpa using hfix.tidy)
    refine ⟨l', placed_of_merged (q := []) (r := l₂') (by simpa using hfix.toLeaves)
      ?_ (by simp) hm hml, ?_⟩
    · intro b hb m hmem
      obtain ⟨hb₁, hb₂⟩ := List.forall_mem_cons.mp hb
      rcases List.mem_cons.mp hmem with rfl | hmem
      · rw [hfix.start]
        exact hb₁
      · exact hfix.lower b hb₂ m hmem
    · rw [hm.map hot (by simpa using htt) (.inl rfl), List.map_nil, between_nil, hfix.list]
      rfl
  · rw [List.concat_eq_append] at hcat
    have hprev' := hprev t l₂' l p hcat hfix
    have hp : rbPrev t n = p := 
      rbPrev_append hot (by simpa [hcat] using htt : t.tree = (pre ++ l) ++ p :: n :: l₂')
    rw [hp]
    refine hprev'.andThen (hmono p t) (merge_monotone n) ?_
    rintro u hu ⟨r, hfix'⟩
    refine .returned fun _ => ?_
    subst hcat
    obtain ⟨free'', hou⟩ := hfix'.owned
    have hframe : ∀ m ∈ l ++ [p], t.entry m = s.entry m :=
      fun m hm => hfix.frame m (List.mem_append_right _ hm)
    have hp' : t.entry p = s.entry p := hframe p (by simp)
    have hl' : ∀ m ∈ l, u.entry m = s.entry m := by
      intro m hm
      rw [hfix'.frame m (List.mem_append_right _ hm), hframe m (List.mem_append_left _ hm)]
    have hpstart : (u.entry p).physicalStart = (s.entry p).physicalStart := by
      rw [hfix'.start, hp']
    rw [List.map_append, tidy_append] at htidy
    obtain ⟨htl, htp, hlp⟩ := htidy
    have hlower : ∀ b, (∀ m ∈ (l ++ [p]) ++ n :: l₂, b ≤ (s.entry m).physicalStart) →
        ∀ m ∈ (l ++ [p]) ++ n :: r, b ≤ (u.entry m).physicalStart := by
      intro b hb m hmem
      have hlater : ∀ k ∈ n :: l₂', b ≤ (t.entry k).physicalStart := by
        refine List.forall_mem_cons.mpr ⟨?_, hfix.lower b fun k hk => hb k (by simp [hk])⟩
        rw [hfix.start]
        exact hb n (by simp)
      rcases List.mem_append.mp hmem with hmem | hmem
      · rcases List.mem_append.mp hmem with hmem | hmem
        · rw [hl' m hmem]
          exact hb m (by simp [hmem])
        · obtain rfl := List.mem_singleton.mp hmem
          rw [hpstart]
          exact hb m (by simp)
      · exact hfix'.lower b hlater m hmem
    have hleaves : Leaves T s u pre (((l ++ [p]) ++ n :: l₂).map s.entry)
        ((l ++ [p]) ++ n :: r) := by
      refine ⟨hfix.toQuiet.trans hfix'.toQuiet, by simpa using hfix'.tree, ⟨_, hou⟩, ?_, ?_, ?_⟩
      · intro m hm
        rw [hfix'.frame m (List.mem_append_left _ hm), hfix.frame m (List.mem_append_left _ hm)]
      · have hall : (l ++ [p]) ++ n :: r = l ++ p :: n :: r := by simp
        rw [hall, List.map_append, List.map_congr_left hl', tidy_append]
        refine ⟨htl, hfix'.tidy, ?_⟩
        intro a ha b hb
        have hab : Before a (s.entry p) := hlp a ha _ (by simp)
        obtain ⟨m, hm, rfl⟩ := List.mem_map.mp hb
        unfold Before at hab ⊢
        rcases List.mem_cons.mp hm with rfl | hm
        · rw [hpstart]
          exact hab
        · refine hfix'.lower _ ?_ m hm
          have hpn := hbelow p (by simp)
          refine List.forall_mem_cons.mpr ⟨?_, hfix.lower _ ?_⟩
          · rw [hfix.start]
            omega
          · intro k hk
            have := habove k hk
            omega
      · intro x
        have h₁ := hfix.best x
        have h₂ := hfix'.best x
        rw [hfix.table] at h₂
        simp only [List.append_assoc, List.map_append, List.map_cons, List.map_nil,
          Cover.View.bestAt_append, Cover.View.bestAt_cons, List.map_congr_left hl', hp']
          at h₁ h₂ ⊢
        rw [h₁] at h₂
        simp only [Cover.View.bestAt_nil] at h₂ ⊢
        omega
    obtain ⟨l', hm, hml⟩ := mergeAdjacent_merged hou
      (hleaves.tree : u.tree = pre ++ ((l ++ [p]) ++ n :: r)) (.inr (by simp)) hleaves.tidy
    refine ⟨l', placed_of_merged hleaves hlower ?_ hm hml, ?_⟩
    · intro h t hht
      refine ⟨⟨t, hht⟩, ?_⟩
      have hmem : h ∈ l ++ [p] := by simp [hht]
      rcases List.mem_append.mp hmem with hmem | hmem
      · rw [hl' h hmem]
      · obtain rfl := List.mem_singleton.mp hmem
        exact hpstart
    · have hlist := hfix'.list
      rw [hfix.table, hp', List.map_cons] at hlist
      rw [hm.map hou hleaves.tree (.inr (by simp)), List.map_append, List.map_cons, List.map_nil,
        between_concat hfix.list]
      simp only [hlist, List.map_append, List.map_cons, List.map_nil, List.map_congr_left hl',
        Option.bind_some]

end PlaceNew

section Gap

variable {T : Target} {s : State} {pre l₁ l₂ : List Ptr} {e : MemoryMapEntry}

theorem fixOverlap_null (T : Target) (fuel : ℕ) (s : State) :
    fixOverlap T (fuel + 1) 0 s = .returned s := by
  simp [fixOverlap, fixOverlapBody]

/-- An entry that overlaps none behind it is left alone. -/
theorem fixOverlap_apart {first : Ptr} {post : List Ptr} (h : FixPre T s pre first post)
    (hb : ∀ m ∈ post, Before (s.entry first) (s.entry m)) (fuel : ℕ) :
    fixOverlap T (fuel + 1) first s = .returned s := by
  obtain ⟨free, ho⟩ := h.owned
  rw [fixOverlap]
  cases post with
  | nil => exact fixOverlapBody_last ho h.tree
  | cons second rest =>
    exact fixOverlapBody_apart ho h.tree h.good (hb second List.mem_cons_self)

/-- From the state in which the new node is linked back to the state before. -/
theorem added_of_placed {s₂ s₃ s' : State} {n : Ptr} {post' : List Ptr}
    (hi : Issued T s s₂ n e) (htree : s.tree = pre ++ (l₁ ++ l₂))
    (hthree : s₃ = s₂.link n (pre ++ (l₁ ++ n :: l₂)))
    (hhead : ∀ h t, l₁ ++ l₂ = h :: t → (s.entry h).physicalStart < e.physicalStart → l₁ ≠ [])
    (hp : Placed T s₃ s' pre l₁ (n :: l₂) post') : Added T s s' pre (l₁ ++ l₂) e post' := by
  have hentry : s₃.entry = s₂.entry := by rw [hthree, State.link_entry]
  have hmem : ∀ m ∈ s.tree, s₃.entry m = s.entry m := by
    intro m hm
    rw [hentry]
    exact hi.entry_of_mem hm
  have h₁ : ∀ m ∈ l₁, s₃.entry m = s.entry m := fun m hm => hmem m (by simp [htree, hm])
  have h₂ : ∀ m ∈ l₂, s₃.entry m = s.entry m := fun m hm => hmem m (by simp [htree, hm])
  have hn : s₃.entry n = e := by rw [hentry, hi.entry_self]
  have hq : Quiet s s₃ := by
    rw [hthree]
    exact ⟨hi.table, hi.pages, hi.stale⟩
  refine ⟨⟨hq.trans hp.toQuiet, hp.tree, hp.owned, ?_, hp.tidy, ?_⟩, ?_, ?_⟩
  · intro m hm
    rw [hp.frame m hm, hmem m (by simp [htree, hm])]
  · intro x
    have hx := hp.best x
    rw [hq.table] at hx
    rw [hx]
    simp only [List.map_append, List.map_cons, List.map_congr_left h₁, List.map_congr_left h₂, hn,
      Cover.View.bestAt_append, Cover.View.bestAt_cons]
    omega
  · intro b hb hpost m hm
    refine hp.lower b ?_ m hm
    intro k hk
    rcases List.mem_append.mp hk with hk | hk
    · rw [h₁ k hk]
      exact hpost k (List.mem_append_left _ hk)
    · rcases List.mem_cons.mp hk with rfl | hk
      · rw [hn]
        exact hb
      · rw [h₂ k hk]
        exact hpost k (List.mem_append_right _ hk)
  · intro h t hht hlt
    cases hl₁ : l₁ with
    | nil => exact absurd hl₁ (hhead h t hht hlt)
    | cons a l =>
      obtain ⟨t', ht', hs⟩ := hp.head a l hl₁
      rw [hl₁, List.cons_append, List.cons.injEq] at hht
      obtain ⟨rfl, -⟩ := hht
      exact ⟨t', ht', by rw [hs, h₁ a (by simp [hl₁])]⟩

theorem AddedTo.bumpKey {post post' : List Ptr} {t : State} (h : AddedTo T s t pre post e post') :
    AddedTo T s t.bumpKey pre post e post' := by
  obtain ⟨free, ho⟩ := h.owned
  exact ⟨⟨⟨⟨h.table, h.pages, h.stale⟩, h.tree, ⟨free, ho.bumpKey⟩, h.frame, h.tidy, h.best⟩,
    h.lower, h.head⟩, h.list⟩

/-- The new node linked between `l₁` and `l₂`. -/
theorem Issued.link {s₂ : State} {n : Ptr} (hi : Issued T s s₂ n e)
    (htree : s.tree = pre ++ (l₁ ++ l₂))
    (hbelow : ∀ m ∈ pre ++ l₁, (s.entry m).physicalStart < e.physicalStart)
    (habove : ∀ m ∈ l₂, e.physicalStart < (s.entry m).physicalStart) :
    rbInsert s₂ n = (0, s₂.link n (pre ++ (l₁ ++ n :: l₂))) ∧
      ∃ free, Owned T (s₂.link n (pre ++ (l₁ ++ n :: l₂))) [] free := by
  have htree₂ : s₂.tree = (pre ++ l₁) ++ l₂ := by rw [hi.tree, htree, List.append_assoc]
  have hmem : ∀ m ∈ pre ++ (l₁ ++ l₂), s₂.entry m = s.entry m := by
    intro m hm
    exact hi.entry_of_mem (htree ▸ hm)
  constructor
  · rw [← List.append_assoc]
    obtain ⟨free, ho⟩ := hi.owned
    apply rbInsert_new ho.fresh.1 htree₂
    · intro m hm
      rw [hi.entry_self, hmem m (by rw [← List.append_assoc]; exact List.mem_append_left _ hm)]
      exact hbelow m hm
    · intro m hm
      rw [hi.entry_self, hmem m (by simp [hm])]
      exact habove m hm
  · obtain ⟨free, ho⟩ := hi.owned
    refine ⟨free, ?_⟩
    rw [← List.append_assoc]
    exact ho.link htree₂

/-- The branch of `mmap_add_entry` where no entry has the same start: `hnew` is
about the new node, `hprev` about the entry in front of it. -/
theorem place_new {ok : String → Prop} {fix : Ptr → State → Outcome} {s₂ : State} {n : Ptr}
    (h : AddPre T s pre (l₁ ++ l₂) e) (hi : Issued T s s₂ n e)
    (hlt₁ : ∀ m ∈ l₁, (s.entry m).physicalStart < e.physicalStart)
    (hlt₂ : ∀ m ∈ l₂, e.physicalStart < (s.entry m).physicalStart)
    (hred : ∀ m ∈ l₁, ¬ Redundant s.overlapPrecedence e (s.entry m))
    (hmono : ∀ n, Monotone (fix n)) (hnull : ∀ t, fix 0 t = .returned t)
    (hnew : ∀ s₃, FixPre T s₃ (pre ++ l₁) n l₂ → s₃.overlapPrecedence = s.overlapPrecedence →
      s₃.entry n = e → (∀ m ∈ l₂, s₃.entry m = s.entry m) →
      EndsIn ok s₃ (fun t => ∃ l₂', Settled T s₃ t (pre ++ l₁) n l₂ l₂') (fix n s₃))
    (hprev : ∀ t l₂' l p, l₁ = l ++ [p] → FixPre T t (pre ++ l) p (n :: l₂') →
      t.entry p = s.entry p → t.overlapPrecedence = s.overlapPrecedence →
      (t.entry n).physicalStart = e.physicalStart → (t.entry n).type = e.type →
      (t.entry n = e ∨ ∃ m ∈ l₂,
        (t.entry n).physicalStart + (t.entry n).size = (s.entry m).physicalStart) →
      (∀ m ∈ l₂', Before (s.entry p) (t.entry m)) →
      EndsIn ok t (fun u => ∃ r, Settled T t u (pre ++ l) p (n :: l₂') (n :: r)) (fix p t)) :
    EndsIn ok s₂ (fun u => ∃ post', AddedTo T s u pre (l₁ ++ l₂) e post') (place fix e n s₂) := by
  have htidy := h.tidy
  rw [List.map_append, tidy_append] at htidy
  obtain ⟨ht₁, ht₂, ht₁₂⟩ := htidy
  have hhead : ∀ a t, l₁ ++ l₂ = a :: t → (s.entry a).physicalStart < e.physicalStart →
      l₁ ≠ [] := by
    rintro a t hat hlt rfl
    have := hlt₂ a (by rw [List.nil_append] at hat; simp [hat])
    omega
  have hhead' : pre = [] ∨ l₁ ≠ [] := by
    rcases h.headed with hp | ⟨a, t, hat, hlt⟩
    · exact .inl hp
    · exact .inr (hhead a t hat hlt)
  have hbelow : ∀ m ∈ pre ++ l₁, (s.entry m).physicalStart < e.physicalStart :=
    fun m hm => (List.mem_append.mp hm).elim (h.below m) (hlt₁ m)
  obtain ⟨hins, free₃, ho₃⟩ := hi.link h.tree hbelow hlt₂
  simp only [place, hins, ne_eq, not_true, if_false]
  generalize hs₃ : s₂.link n (pre ++ (l₁ ++ n :: l₂)) = s₃ at *
  have hentry : ∀ m ∈ pre ++ (l₁ ++ l₂), s₃.entry m = s.entry m := by
    intro m hm
    rw [← hs₃]
    exact hi.entry_of_mem (h.tree ▸ hm)
  have hn : s₃.entry n = e := by
    rw [← hs₃]
    exact hi.entry_self
  have he₁ : ∀ m ∈ l₁, s₃.entry m = s.entry m := fun m hm => hentry m (by simp [hm])
  have he₂ : ∀ m ∈ l₂, s₃.entry m = s.entry m := fun m hm => hentry m (by simp [hm])
  have htable : s₃.overlapPrecedence = s.overlapPrecedence := by
    rw [← hs₃]
    exact hi.table
  have htree₃ : s₃.tree = pre ++ (l₁ ++ n :: l₂) := by rw [← hs₃, State.link_tree]
  have hrefills : s₃.refills = s₂.refills := by
    rw [← hs₃]
    rfl
  have hpre₃ : FixPre T s₃ (pre ++ l₁) n l₂ := by
    refine ⟨htable ▸ h.complete, ⟨free₃, ho₃⟩, by simpa using htree₃, hn ▸ h.good, ?_, ?_, ?_⟩
    · rw [List.map_congr_left he₂]
      exact ht₂
    · intro m hm k hk
      rw [he₂ k hk, hentry m (by
        rw [← List.append_assoc]; exact List.mem_append_left _ hm)]
      exact (hbelow m hm).trans (hlt₂ k hk)
    · intro m hm
      rw [he₂ m hm, hn]
      exact hlt₂ m hm
  have hplaced : EndsIn ok s₃ (fun u => ∃ post', Placed T s₃ u pre l₁ (n :: l₂) post' ∧
      between s₃.overlapPrecedence (l₁.map s₃.entry) (s₃.entry n) (l₂.map s₃.entry) =
        some (post'.map u.entry)) (placeNew fix n s₃) := by
    refine placeNew_endsIn hhead' ?_ ?_ ?_ hmono hnull (hnew s₃ hpre₃ htable hn he₂) ?_
    · rw [List.map_congr_left he₁]
      exact ht₁
    · intro m hm
      rw [he₁ m hm, hn]
      exact hlt₁ m hm
    · intro m hm
      rw [he₂ m hm, hn]
      exact hlt₂ m hm
    · intro t l₂' l p hcat hfix
      obtain ⟨freet, hot⟩ := hfix.owned
      have hp : p ∈ l₁ := by simp [hcat]
      have hpt : t.entry p = s.entry p := by
        rw [hfix.frame p (List.mem_append_right _ hp), he₁ p hp]
      have hframe : ∀ m ∈ pre ++ l, t.entry m = s.entry m := by
        intro m hm
        have hm' : m ∈ pre ++ l₁ := by
          rw [hcat, ← List.append_assoc]
          exact List.mem_append_left _ hm
        rw [hfix.frame m hm', hentry m (by
          rw [← List.append_assoc]; exact List.mem_append_left _ hm')]
      have hafter : ∀ m ∈ l₂', Before (s.entry p) (t.entry m) := by
        refine hfix.lower _ ?_
        intro m hm
        rw [he₂ m hm]
        exact ht₁₂ _ (List.mem_map_of_mem hp) _ (List.mem_map_of_mem hm)
      have hlater : ∀ m ∈ n :: l₂', e.physicalStart ≤ (t.entry m).physicalStart := by
        refine List.forall_mem_cons.mpr ⟨?_, hfix.lower _ ?_⟩
        · rw [hfix.start, hn]
        · intro m hm
          rw [he₂ m hm]
          exact (hlt₂ m hm).le
      refine hprev t l₂' l p hcat ?_ hpt (hfix.table.trans htable) (by rw [hfix.start, hn])
        ?_ ?_ hafter
      · refine ⟨?_, ⟨freet, hot⟩, ?_, ?_, hfix.tidy, ?_, ?_⟩
        · rw [hfix.table, htable]
          exact h.complete
        · rw [hfix.tree, hcat]
          simp
        · rw [hpt]
          exact ht₁.good _ (List.mem_map_of_mem hp)
        · intro m hm k hk
          rw [hframe m hm]
          have hm' : m ∈ pre ++ l₁ := by
            rw [hcat, ← List.append_assoc]
            exact List.mem_append_left _ hm
          exact lt_of_lt_of_le (hbelow m hm') (hlater k hk)
        · intro k hk
          rw [hpt]
          exact lt_of_lt_of_le (hlt₁ p hp) (hlater k hk)
      · rw [hfix.type, hn]
      · rcases hfix.whole with hw | ⟨m, hm, hw⟩
        · exact .inl (hw.trans hn)
        · exact .inr ⟨m, hm, by rw [hw, he₂ m hm]⟩
  refine (hplaced.congr hrefills).mono ?_
  rintro u ⟨post', hp, hlist⟩
  refine ⟨post', added_of_placed hi h.tree hs₃.symm hhead hp, ?_⟩
  rw [htable, hn, List.map_congr_left he₁, List.map_congr_left he₂] at hlist
  rw [List.map_append, addTo_between ?_ (by simpa using hlt₁) (by simpa using hlt₂)]
  · exact hlist
  · intro k hk
    rcases List.mem_append.mp hk with hk | hk
    · obtain ⟨m, hm, rfl⟩ := List.mem_map.mp hk
      exact hred m hm
    · obtain ⟨m, hm, rfl⟩ := List.mem_map.mp hk
      rintro ⟨hlt, -⟩
      have := hlt₂ m hm
      omega

/-- Adding an entry that overlaps nothing. -/
theorem addEntry_gap (h : AddPre T s pre (l₁ ++ l₂) e)
    (h₁ : ∀ m ∈ l₁, Before (s.entry m) e) (h₂ : ∀ m ∈ l₂, Before e (s.entry m)) (fuel : ℕ) :
    Succeeds s (fun s' => ∃ post', AddedTo T s s' pre (l₁ ++ l₂) e post')
      (mmapAddEntry T (fuel + 2) e s) := by
  obtain ⟨free, ho⟩ := h.owned
  have hne := h.good.nonempty
  have htidy := h.tidy
  rw [List.map_append, tidy_append] at htidy
  obtain ⟨ht₁, -, -⟩ := htidy
  rw [mmapAddEntry_aligned T (fuel + 1) h.good]
  refine insertEntry_endsIn rfl ho (addEntry_monotone T (fuel + 1)).1 ?_ ?_
  · rintro t ⟨post', hp⟩
    exact ⟨post', hp.bumpKey⟩
  intro n s₂ hi _
  refine place_new h hi ?_ ?_ ?_ (addEntry_monotone T (fuel + 1)).1 (fixOverlap_null T fuel) ?_ ?_
  · intro m hm
    have hb := h₁ m hm
    have hg := (ht₁.good _ (List.mem_map_of_mem hm)).nonempty
    unfold Before at hb
    omega
  · intro m hm
    have hb := h₂ m hm
    unfold Before at hb
    omega
  · rintro m hm ⟨-, hlt, -⟩
    have hb := h₁ m hm
    unfold Before at hb
    omega
  · intro s₃ hpre _ hn he₂
    have hapart : ∀ m ∈ l₂, Before (s₃.entry n) (s₃.entry m) := by
      intro m hm
      rw [hn, he₂ m hm]
      exact h₂ m hm
    rw [fixOverlap_apart hpre hapart]
    exact .returned fun _ => ⟨l₂, hpre.refl_settled hapart⟩
  · intro t l₂' l p hcat hpre hpt _ hstart _ _ hafter
    have hp : p ∈ l₁ := by simp [hcat]
    have hapart : ∀ m ∈ n :: l₂', Before (t.entry p) (t.entry m) := by
      refine List.forall_mem_cons.mpr ⟨?_, fun m hm => hpt ▸ hafter m hm⟩
      have hb := h₁ p hp
      unfold Before at hb ⊢
      rw [hpt, hstart]
      exact hb
    rw [fixOverlap_apart hpre hapart]
    exact .returned fun _ => ⟨l₂', hpre.refl_settled hapart⟩

end Gap

end Gandr.Mmap

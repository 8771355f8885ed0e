import Gandr.Mmap.AddEntry

/-! `mmap_add_entry` where an entry of the same start exists, and the mutual
recursion of `mmap_add_entry` and `fix_overlap` as a whole. -/

namespace Gandr.Mmap

section PlaceOld

variable {T : Target} {s : State} {pre l₁ l₂ : List Ptr} {e o : MemoryMapEntry}
  {table : List MemoryType} {t : MemoryType}

/-- Same range: the stronger type is kept. -/
theorem value_same (hstart : o.physicalStart = e.physicalStart) (hsize : o.size = e.size)
    (ht : rank table t = min (rank table o.type) (rank table e.type)) (x : ℕ) :
    (view table).valueAt { o with type := t } x =
      min ((view table).valueAt e x) ((view table).valueAt o x) := by
  simp only [valueAt_view, hstart, hsize, ht]
  split_ifs <;> omega

/-- Same start, `o` longer: the common part gets the stronger type. -/
theorem value_longer (ho : Good o) (hstart : o.physicalStart = e.physicalStart)
    (hsize : e.size < o.size)
    (ht : rank table t = min (rank table o.type) (rank table e.type)) (x : ℕ) :
    min ((view table).valueAt { e with type := t } x)
      ((view table).valueAt (dropFront o e.size) x) =
      min ((view table).valueAt e x) ((view table).valueAt o x) := by
  obtain ⟨h₁, h₂⟩ := dropFront_eq ho hsize
  have h₃ : (dropFront o e.size).type = o.type := rfl
  have h₄ := rank_le table e.type
  simp only [valueAt_view, h₁, h₂, h₃, ht]
  split_ifs <;> omega

/-- `merge_adjacent` as the last step of adding `e`. -/
theorem added_of_merge {s' : State} {post q r : List Ptr} {mid : Ptr}
    (hl : Leaves T s s' pre (e :: post.map s.entry) (q ++ mid :: r))
    (hpre : pre = [] ∨ q ≠ [])
    (hlower : ∀ b, b ≤ e.physicalStart → (∀ m ∈ post, b ≤ (s.entry m).physicalStart) →
      ∀ m ∈ q ++ mid :: r, b ≤ (s'.entry m).physicalStart)
    (hhead : ∀ h t, post = h :: t → (s.entry h).physicalStart < e.physicalStart →
      (∃ t', q = h :: t') ∧ (s'.entry h).physicalStart = (s.entry h).physicalStart) :
    ∃ post', Added T s (mergeAdjacent s' mid) pre post e post' ∧
      post'.map (mergeAdjacent s' mid).entry =
        joinAt (q.map s'.entry) (s'.entry mid) (r.map s'.entry) := by
  obtain ⟨free, ho⟩ := hl.owned
  obtain ⟨l', hm, hml⟩ := mergeAdjacent_merged ho hl.tree hpre hl.tidy
  refine ⟨l', ⟨hl.trans hm.toLeaves, ?_, ?_⟩, hm.map ho hl.tree hpre⟩
  · intro b hb hpost m hmem
    rw [hm.start m]
    exact hlower b hb hpost m (hm.sub m hmem)
  · intro h t hht hlt
    obtain ⟨⟨t', hq⟩, hs⟩ := hhead h t hht hlt
    obtain ⟨t'', ht''⟩ := hml h t' hq
    exact ⟨t'', ht'', (hm.start h).trans hs⟩

/-- The state in which a node of equal start was found. -/
structure Found (T : Target) (s s₂ : State) (pre l₁ : List Ptr) (old : Ptr) (l₂ : List Ptr)
    (n : Ptr) (e : MemoryMapEntry) : Prop where
  pre : AddPre T s pre (l₁ ++ old :: l₂) e
  issued : Issued T s s₂ n e
  start : (s.entry old).physicalStart = e.physicalStart
  below : ∀ m ∈ l₁, (s.entry m).physicalStart < e.physicalStart
  above : ∀ m ∈ l₂, e.physicalStart < (s.entry m).physicalStart

namespace Found

variable {s₂ : State} {old n : Ptr}

theorem tidy (h : Found T s s₂ pre l₁ old l₂ n e) :
    Tidy (l₁.map s.entry) ∧ Good (s.entry old) ∧ Tidy (l₂.map s.entry) ∧
      (∀ m ∈ l₁, Before (s.entry m) (s.entry old)) ∧
      ∀ m ∈ l₂, Before (s.entry old) (s.entry m) := by
  have ht := h.pre.tidy
  rw [List.map_append, List.map_cons, tidy_append, tidy_cons] at ht
  obtain ⟨h₁, ⟨hg, hb, h₂⟩, hc⟩ := ht
  exact ⟨h₁, hg, h₂, fun m hm => hc _ (List.mem_map_of_mem hm) _ List.mem_cons_self,
    fun m hm => hb _ (List.mem_map_of_mem hm)⟩

theorem not_mem (h : Found T s s₂ pre l₁ old l₂ n e) :
    (n ∉ pre ∧ n ∉ l₁ ∧ n ≠ old ∧ n ∉ l₂) ∧ old ∉ pre ∧ old ∉ l₁ ∧ old ∉ l₂ := by
  obtain ⟨free, ho⟩ := h.pre.owned
  have hn := h.issued.fresh
  rw [h.pre.tree] at hn
  obtain ⟨h₁, h₂⟩ := ho.not_mem
    (by simpa using h.pre.tree : s.tree = (pre ++ l₁) ++ old :: l₂)
  simp only [List.mem_append, List.mem_cons, not_or] at hn h₁
  exact ⟨hn, h₁.1, h₁.2, h₂⟩

theorem tree (h : Found T s s₂ pre l₁ old l₂ n e) : s₂.tree = pre ++ (l₁ ++ old :: l₂) :=
  h.issued.tree.trans h.pre.tree

theorem hpre (h : Found T s s₂ pre l₁ old l₂ n e) : pre = [] ∨ l₁ ≠ [] := by
  rcases h.pre.headed with hp | ⟨a, t, hat, hlt⟩
  · exact .inl hp
  · refine .inr ?_
    rintro rfl
    simp only [List.nil_append, List.cons.injEq] at hat
    rw [← hat.1, h.start] at hlt
    omega

theorem rbInsert_eq (h : Found T s s₂ pre l₁ old l₂ n e) : rbInsert s₂ n = (old, s₂) := by
  refine rbInsert_old (by simpa using h.tree : s₂.tree = (pre ++ l₁) ++ old :: l₂) ?_ ?_
  · intro m hm
    have hmem : m ∈ s.tree := by
      rw [h.pre.tree, ← List.append_assoc]
      exact List.mem_append_left _ hm
    rw [h.issued.entry_self, h.issued.entry_of_mem hmem]
    exact (List.mem_append.mp hm).elim (h.pre.below m) (h.below m)
  · rw [h.issued.entry_self, h.issued.entry_of_mem (by simp [h.pre.tree]), h.start]

/-- New contents for `old` and `n`, everything else as before. -/
theorem entries (h : Found T s s₂ pre l₁ old l₂ n e) {s₃ : State} {o' e' : MemoryMapEntry}
    (he : s₃.entry = Function.update (Function.update s₂.entry old o') n e') :
    s₃.entry old = o' ∧ s₃.entry n = e' ∧ (∀ m ∈ pre, s₃.entry m = s.entry m) ∧
      (∀ m ∈ l₁, s₃.entry m = s.entry m) ∧ ∀ m ∈ l₂, s₃.entry m = s.entry m := by
  obtain ⟨⟨hn₁, hn₂, hn₃, hn₄⟩, ho₁, ho₂, ho₃⟩ := h.not_mem
  have hother : ∀ l : List Ptr, (∀ m ∈ l, m ∈ s.tree) → n ∉ l → old ∉ l →
      ∀ m ∈ l, s₃.entry m = s.entry m := by
    intro l hl hn ho m hm
    rw [he, update_of_mem hn hm, update_of_mem ho hm, h.issued.entry_of_mem (hl m hm)]
  refine ⟨?_, ?_, hother pre ?_ hn₁ ho₁, hother l₁ ?_ hn₂ ho₂, hother l₂ ?_ hn₄ ho₃⟩
  · rw [he, Function.update_of_ne (Ne.symm hn₃), Function.update_self]
  · rw [he, Function.update_self]
  all_goals
    intro m hm
    simp [h.pre.tree, hm]

/-- Rewritten entries in the order `q`, after the node was used up or linked. -/
theorem leaves (h : Found T s s₂ pre l₁ old l₂ n e) {s₃ : State} {o' e' : MemoryMapEntry}
    {mid : List Ptr} (he : s₃.entry = Function.update (Function.update s₂.entry old o') n e')
    (hq : Quiet s s₃) (htree : s₃.tree = pre ++ (l₁ ++ (mid ++ l₂)))
    (hown : ∃ free, Owned T s₃ [] free)
    (htidy : Tidy (mid.map s₃.entry))
    (hin : ∀ m ∈ mid, e.physicalStart ≤ (s₃.entry m).physicalStart ∧
      ∀ k ∈ l₂, Before (s₃.entry m) (s.entry k))
    (hbest : ∀ x, (view s.overlapPrecedence).bestAt (mid.map s₃.entry) x =
      min ((view s.overlapPrecedence).valueAt e x)
        ((view s.overlapPrecedence).valueAt (s.entry old) x)) :
    Leaves T s s₃ pre (e :: (l₁ ++ old :: l₂).map s.entry) (l₁ ++ (mid ++ l₂)) := by
  obtain ⟨-, -, hpre, h₁, h₂⟩ := h.entries he
  obtain ⟨t₁, -, t₂, b₁, b₂⟩ := h.tidy
  refine ⟨hq, htree, hown, hpre, ?_, ?_⟩
  · rw [List.map_append, List.map_append, List.map_congr_left h₁, List.map_congr_left h₂,
      tidy_append, tidy_append]
    refine ⟨t₁, ⟨htidy, t₂, ?_⟩, ?_⟩
    · intro a ha b hb
      obtain ⟨m, hm, rfl⟩ := List.mem_map.mp ha
      obtain ⟨k, hk, rfl⟩ := List.mem_map.mp hb
      exact (hin m hm).2 k hk
    · intro a ha b hb
      obtain ⟨m, hm, rfl⟩ := List.mem_map.mp ha
      have hbo := b₁ m hm
      unfold Before at *
      rw [h.start] at hbo
      rcases List.mem_append.mp hb with hb | hb
      · obtain ⟨k, hk, rfl⟩ := List.mem_map.mp hb
        exact hbo.trans (hin k hk).1
      · obtain ⟨k, hk, rfl⟩ := List.mem_map.mp hb
        exact hbo.trans (h.above k hk).le
  · intro x
    have hx := hbest x
    have hm := (view s.overlapPrecedence).bestAt_le_top (l₂.map s.entry) x
    simp only [List.map_append, List.map_cons, List.map_congr_left h₁, List.map_congr_left h₂,
      Cover.View.bestAt_append, Cover.View.bestAt_cons, hx]
    omega

theorem head (h : Found T s s₂ pre l₁ old l₂ n e) {a : Ptr} {t : List Ptr}
    (hat : l₁ ++ old :: l₂ = a :: t) (hlt : (s.entry a).physicalStart < e.physicalStart) :
    a ∈ l₁ ∧ ∃ t', l₁ = a :: t' := by
  cases l₁ with
  | nil =>
    simp only [List.nil_append, List.cons.injEq] at hat
    rw [← hat.1, h.start] at hlt
    omega
  | cons b l =>
    simp only [List.cons_append, List.cons.injEq] at hat
    exact ⟨by simp [hat.1], l, by rw [hat.1]⟩

theorem keepsHead (h : Found T s s₂ pre l₁ old l₂ n e) {s₃ : State}
    (he : ∀ m ∈ l₁, s₃.entry m = s.entry m) (a : Ptr) (t : List Ptr)
    (hat : l₁ ++ old :: l₂ = a :: t) (hlt : (s.entry a).physicalStart < e.physicalStart) :
    (∃ t', l₁ = a :: t') ∧ (s₃.entry a).physicalStart = (s.entry a).physicalStart := by
  obtain ⟨hmem, hl₁⟩ := h.head hat hlt
  exact ⟨hl₁, by rw [he a hmem]⟩

/-- What the call makes of the entries. -/
theorem addTo_eq (h : Found T s s₂ pre l₁ old l₂ n e) :
    addTo s.overlapPrecedence e ((l₁ ++ old :: l₂).map s.entry) =
      besideOld s.overlapPrecedence (l₁.map s.entry) e (s.entry old) (l₂.map s.entry)
        (settle s.overlapPrecedence (dropFront e (s.entry old).size) (l₂.map s.entry)) := by
  obtain ⟨-, -, -, b₁, -⟩ := h.tidy
  have hne := h.pre.good.nonempty
  rw [List.map_append, List.map_cons, addTo_old ?_ (by simpa using h.below) h.start]
  intro k hk
  rcases List.mem_append.mp hk with hk | hk
  · obtain ⟨m, hm, rfl⟩ := List.mem_map.mp hk
    rintro ⟨-, hlt, -⟩
    have hb := b₁ m hm
    unfold Before at hb
    rw [h.start] at hb
    omega
  · rw [← List.map_cons] at hk
    obtain ⟨m, hm, rfl⟩ := List.mem_map.mp hk
    rintro ⟨hlt, -⟩
    rcases List.mem_cons.mp hm with rfl | hm
    · exact absurd h.start hlt.ne
    · exact absurd (h.above m hm) hlt.not_gt

theorem lower (h : Found T s s₂ pre l₁ old l₂ n e) {s₃ : State} {o' e' : MemoryMapEntry}
    {mid : List Ptr} (he : s₃.entry = Function.update (Function.update s₂.entry old o') n e')
    (hin : ∀ m ∈ mid, e.physicalStart ≤ (s₃.entry m).physicalStart) (b : ℕ)
    (hb : b ≤ e.physicalStart)
    (hpost : ∀ m ∈ l₁ ++ old :: l₂, b ≤ (s.entry m).physicalStart) :
    ∀ m ∈ l₁ ++ (mid ++ l₂), b ≤ (s₃.entry m).physicalStart := by
  obtain ⟨-, -, -, h₁, h₂⟩ := h.entries he
  intro m hm
  rcases List.mem_append.mp hm with hm | hm
  · rw [h₁ m hm]
    exact hpost m (by simp [hm])
  · rcases List.mem_append.mp hm with hm | hm
    · exact hb.trans (hin m hm)
    · rw [h₂ m hm]
      exact hpost m (by simp [hm])

end Found

section Cases

variable {s₂ : State} {old n : Ptr}

/-- Same range: the old node takes the stronger type and the new one is freed. -/
theorem Found.same (h : Found T s s₂ pre l₁ old l₂ n e) (hsize : (s.entry old).size = e.size)
    (htype : t = higherPrecedence s.overlapPrecedence (s.entry old).type e.type) :
    ∃ post', AddedTo T s (mergeAdjacent (mmapFreeEntry
      (s₂.setEntry old { s.entry old with type := t }) n) old) pre (l₁ ++ old :: l₂) e post' := by
  obtain ⟨free₂, ho₂⟩ := h.issued.owned
  have ht := htype ▸ rank_higherPrecedence h.pre.complete (s.entry old).type e.type
  obtain ⟨-, hg, -, -, b₂⟩ := h.tidy
  generalize ho' : ({ s.entry old with type := t } : MemoryMapEntry) = o'
  have hgo : Good o' := ho' ▸ good_retype hg
  have hstart : o'.physicalStart = e.physicalStart := ho' ▸ h.start
  have hsize' : o'.size = (s.entry old).size := ho' ▸ rfl
  have hvalue : ∀ x, (view s.overlapPrecedence).valueAt o' x =
      min ((view s.overlapPrecedence).valueAt e x)
        ((view s.overlapPrecedence).valueAt (s.entry old) x) :=
    ho' ▸ value_same h.start hsize ht
  generalize hs' : mmapFreeEntry (s₂.setEntry old o') n = s'
  have he : s'.entry = Function.update (Function.update s₂.entry old o') n e := by
    rw [← hs']
    funext m
    by_cases hm : m = n
    · subst hm
      rw [Function.update_self]
      exact (Function.update_of_ne h.not_mem.1.2.2.1 _ _).trans h.issued.entry_self
    · rw [Function.update_of_ne hm]
      rfl
  obtain ⟨eo, -, -, e₁, e₂⟩ := h.entries he
  have hquiet : Quiet s s' := by
    rw [← hs']
    exact ⟨h.issued.table, h.issued.pages, h.issued.stale⟩
  have htree : s'.tree = pre ++ (l₁ ++ ([old] ++ l₂)) := by
    rw [← hs']
    exact h.tree
  have hown : ∃ free, Owned T s' [] free := by
    rw [← hs']
    exact ⟨_, (ho₂.setEntry old _).freed⟩
  have htidy : Tidy ([old].map s'.entry) := by
    rw [List.map_cons, List.map_nil, eo]
    exact tidy_cons.mpr ⟨hgo, by simp, tidy_nil⟩
  have hin : ∀ m ∈ [old], e.physicalStart ≤ (s'.entry m).physicalStart ∧
      ∀ k ∈ l₂, Before (s'.entry m) (s.entry k) := by
    intro m hm
    obtain rfl := List.mem_singleton.mp hm
    rw [eo, hstart]
    refine ⟨le_rfl, fun k hk => ?_⟩
    have := b₂ k hk
    unfold Before at *
    rw [hstart, hsize', ← h.start]
    exact this
  have hbest : ∀ x, (view s.overlapPrecedence).bestAt ([old].map s'.entry) x =
      min ((view s.overlapPrecedence).valueAt e x)
        ((view s.overlapPrecedence).valueAt (s.entry old) x) := by
    intro x
    rw [List.map_cons, List.map_nil, eo, Cover.View.bestAt_cons, hvalue x]
    exact min_eq_left ((min_le_left _ _).trans (Cover.View.valueAt_le_top _ (rank_le _ _) x))
  have hl := h.leaves he hquiet htree hown htidy hin hbest
  obtain ⟨post', ha, hlist⟩ := added_of_merge (q := l₁) (r := l₂) hl h.hpre
    (h.lower he fun m hm => (hin m hm).1) (h.keepsHead e₁)
  refine ⟨post', ha, ?_⟩
  rw [h.addTo_eq, besideOld, if_pos hsize, hlist, eo, List.map_congr_left e₁,
    List.map_congr_left e₂, ← ho', htype]

/-- The old entry is longer: the new node takes its first part. -/
theorem Found.longer {ok : String → Prop} (h : Found T s s₂ pre l₁ old l₂ n e)
    (hsize : e.size < (s.entry old).size)
    (htype : t = higherPrecedence s.overlapPrecedence (s.entry old).type e.type) :
    EndsIn ok s₂ (fun u => ∃ post', AddedTo T s u pre (l₁ ++ old :: l₂) e post')
      (reinsert n ((s₂.setEntry n { e with type := t }).setEntry old
        (dropFront (s.entry old) e.size)) fun u => .returned (mergeAdjacent u n)) := by
  obtain ⟨free₂, ho₂⟩ := h.issued.owned
  have ht := htype ▸ rank_higherPrecedence h.pre.complete (s.entry old).type e.type
  obtain ⟨-, hg, -, -, b₂⟩ := h.tidy
  have hge := h.pre.good
  have hne := hge.nonempty
  have hns : n ≠ old := h.not_mem.1.2.2.1
  obtain ⟨d₁, d₂⟩ := dropFront_eq hg hsize
  generalize hs' : (s₂.setEntry n { e with type := t }).setEntry old
    (dropFront (s.entry old) e.size) = s'
  have he : s'.entry = Function.update (Function.update s₂.entry old
      (dropFront (s.entry old) e.size)) n { e with type := t } := by
    rw [← hs']
    exact Function.update_comm hns _ _ _
  have htree : s'.tree = pre ++ (l₁ ++ old :: l₂) := by
    rw [← hs']
    exact h.tree
  obtain ⟨eo, en, e₀, e₁, e₂⟩ := h.entries he
  have hins : rbInsert s' n = (0, s'.link n ((pre ++ l₁) ++ n :: old :: l₂)) := by
    refine rbInsert_new ho₂.fresh.1 (by simpa using htree) ?_ ?_
    · intro m hm
      rw [en]
      rcases List.mem_append.mp hm with hm | hm
      · rw [e₀ m hm]
        exact h.pre.below m hm
      · rw [e₁ m hm]
        exact h.below m hm
    · rw [en]
      refine List.forall_mem_cons.mpr ⟨?_, fun m hm => ?_⟩
      · rw [eo, d₁, h.start]
        change e.physicalStart < _
        omega
      · rw [e₂ m hm]
        exact h.above m hm
  have hown : ∃ free, Owned T (s'.link n ((pre ++ l₁) ++ n :: old :: l₂)) [] free := by
    refine ⟨free₂, Owned.link (s := s') ?_ (by simpa using htree)⟩
    rw [← hs']
    exact (ho₂.setEntry _ _).setEntry _ _
  have hquiet : Quiet s (s'.link n ((pre ++ l₁) ++ n :: old :: l₂)) := by
    rw [← hs']
    exact ⟨h.issued.table, h.issued.pages, h.issued.stale⟩
  have htidy : Tidy ([n, old].map s'.entry) := by
    simp only [List.map_cons, List.map_nil, en, eo]
    refine tidy_cons.mpr ⟨good_retype hge, ?_, tidy_cons.mpr
      ⟨good_dropFront hg hsize hge.sizeAligned, by simp, tidy_nil⟩⟩
    intro b hb
    obtain rfl := List.mem_singleton.mp hb
    simp only [Before, d₁, h.start]
    exact le_rfl
  have hin : ∀ m ∈ [n, old], e.physicalStart ≤ (s'.entry m).physicalStart ∧
      ∀ k ∈ l₂, Before (s'.entry m) (s.entry k) := by
    refine List.forall_mem_cons.mpr ⟨⟨by rw [en], fun k hk => ?_⟩,
      List.forall_mem_cons.mpr ⟨⟨?_, fun k hk => ?_⟩, by simp⟩⟩
    · have := b₂ k hk
      rw [en]
      simp only [Before, h.start] at *
      omega
    · rw [eo, d₁, h.start]
      omega
    · have := b₂ k hk
      rw [eo]
      simp only [Before, d₁, d₂] at *
      omega
  have hbest : ∀ x, (view s.overlapPrecedence).bestAt ([n, old].map s'.entry) x =
      min ((view s.overlapPrecedence).valueAt e x)
        ((view s.overlapPrecedence).valueAt (s.entry old) x) := by
    intro x
    rw [← value_longer hg h.start hsize ht x, List.map_cons, List.map_cons, List.map_nil, en, eo,
      Cover.View.bestAt_cons, Cover.View.bestAt_cons, Cover.View.bestAt_nil]
    exact congrArg _ (min_eq_left (Cover.View.valueAt_le_top _ (rank_le _ _) x))
  simp only [reinsert, hins, ne_eq, not_true, if_false]
  refine .returned fun _ => ?_
  generalize hs₃ : s'.link n ((pre ++ l₁) ++ n :: old :: l₂) = s₃ at *
  have hentry : s'.entry = s₃.entry := by rw [← hs₃, State.link_entry]
  have htree₃ : s₃.tree = pre ++ (l₁ ++ ([n, old] ++ l₂)) := by
    rw [← hs₃]
    simp
  rw [hentry] at he eo en e₁ e₂ htidy hin hbest
  have hl := h.leaves he hquiet htree₃ hown htidy hin hbest
  obtain ⟨post', ha, hlist⟩ := added_of_merge (q := l₁) (r := old :: l₂) hl h.hpre
    (h.lower he fun m hm => (hin m hm).1) (h.keepsHead e₁)
  refine ⟨post', ha, ?_⟩
  rw [h.addTo_eq, besideOld, if_neg hsize.ne', if_pos hsize, hlist, List.map_cons, eo, en,
    List.map_congr_left e₁, List.map_congr_left e₂, htype]

/-- A second insertion that meets no equal start. -/
theorem rbInsert_fst_null {s : State} {free hand : List Ptr} {n : Ptr} (ho : Owned T s hand free)
    (h : (rbInsert s n).1 = 0) :
    ∀ m ∈ s.tree, (s.entry m).physicalStart ≠ (s.entry n).physicalStart := by
  intro m hm heq
  simp only [rbInsert] at h
  split at h
  · next k hk => exact ho.ne_null (List.mem_of_find?_eq_some hk) h
  · next hnone =>
    have := List.find?_eq_none.mp hnone m hm
    simp [heq] at this

/-- A second insertion that meets an equal start. -/
theorem rbInsert_fst_ne {s : State} {n : Ptr} (h : (rbInsert s n).1 ≠ 0) :
    ∃ m ∈ s.tree, (s.entry m).physicalStart = (s.entry n).physicalStart := by
  simp only [rbInsert] at h
  split at h
  · next k hk =>
    refine ⟨k, List.mem_of_find?_eq_some hk, ?_⟩
    have := List.find?_some hk
    simpa using this
  · exact absurd rfl h

/-- The old entry is shorter: the new node takes what lies behind it, which may
overlap further entries. -/
theorem Found.shorter {fix : Ptr → State → Outcome} (h : Found T s s₂ pre l₁ old l₂ n e)
    (hsize : (s.entry old).size < e.size)
    (htype : t = higherPrecedence s.overlapPrecedence (s.entry old).type e.type)
    (hmono : Monotone (fix n))
    (hfix : ∀ s₃, FixPre T s₃ (pre ++ (l₁ ++ [old])) n l₂ →
      EndsIn (PanicsAs (settle s₃.overlapPrecedence (s₃.entry n) (l₂.map s₃.entry))) s₃
        (fun u => ∃ post', Settled T s₃ u (pre ++ (l₁ ++ [old])) n l₂ post') (fix n s₃)) :
    EndsIn (PanicsAs (addTo s.overlapPrecedence e ((l₁ ++ old :: l₂).map s.entry))) s₂
      (fun u => ∃ post', AddedTo T s u pre (l₁ ++ old :: l₂) e post')
      (reinsert n ((s₂.setEntry old { s.entry old with type := t }).setEntry n
        (dropFront e (s.entry old).size)) fun u =>
          (fix n u).andThen fun u => .returned (mergeAdjacent u n)) := by
  obtain ⟨free₂, ho₂⟩ := h.issued.owned
  obtain ⟨t₁, hg, t₂, b₁, b₂⟩ := h.tidy
  have hge := h.pre.good
  have hne := hg.nonempty
  obtain ⟨d₁, d₂⟩ := dropFront_eq hge hsize
  have hge' : Good (dropFront e (s.entry old).size) := good_dropFront hge hsize hg.sizeAligned
  have ht := htype ▸ rank_higherPrecedence h.pre.complete (s.entry old).type e.type
  have ht' : rank s.overlapPrecedence t =
      min (rank s.overlapPrecedence e.type) (rank s.overlapPrecedence (s.entry old).type) := by
    rw [ht, min_comm]
  have hvalue := value_longer hge h.start.symm hsize ht'
  have hlist : addTo s.overlapPrecedence e ((l₁ ++ old :: l₂).map s.entry) =
      if ∃ k ∈ (l₂.map s.entry).head?,
        k.physicalStart = (dropFront e (s.entry old).size).physicalStart then none
      else (settle s.overlapPrecedence (dropFront e (s.entry old).size) (l₂.map s.entry)).map
        fun x => joinAt (l₁.map s.entry ++ [{ s.entry old with type := t }]) x.1 x.2 := by
    rw [h.addTo_eq, besideOld, if_neg hsize.ne, if_neg hsize.not_gt, htype]
  generalize he' : dropFront e (s.entry old).size = e' at *
  generalize ho' : ({ s.entry old with type := t } : MemoryMapEntry) = o' at *
  have hgo : Good o' := ho' ▸ good_retype hg
  have hostart : o'.physicalStart = e.physicalStart := ho' ▸ h.start
  have hosize : o'.size = (s.entry old).size := ho' ▸ rfl
  generalize hs' : (s₂.setEntry old o').setEntry n e' = s'
  have he : s'.entry = Function.update (Function.update s₂.entry old o') n e' := by
    rw [← hs']
    rfl
  have htree : s'.tree = pre ++ (l₁ ++ old :: l₂) := by
    rw [← hs']
    exact h.tree
  have hown' : Owned T s' [n] free₂ := by
    rw [← hs']
    exact (ho₂.setEntry _ _).setEntry _ _
  obtain ⟨eo, en, e₀, e₁, e₂⟩ := h.entries he
  have hbelow : ∀ m ∈ pre ++ (l₁ ++ [old]), (s'.entry m).physicalStart < e'.physicalStart := by
    intro m hm
    rw [d₁]
    simp only [List.mem_append, List.mem_singleton] at hm
    rcases hm with hm | hm | rfl
    · rw [e₀ m hm]
      exact (h.pre.below m hm).trans (by omega)
    · rw [e₁ m hm]
      exact (h.below m hm).trans (by omega)
    · rw [eo, hostart]
      omega
  have hbehind : ∀ k ∈ l₂.map s.entry, e'.physicalStart ≤ k.physicalStart := by
    intro k hk
    obtain ⟨m, hm, rfl⟩ := List.mem_map.mp hk
    have hbm := b₂ m hm
    unfold Before at hbm
    rw [h.start] at hbm
    rw [d₁]
    exact hbm
  by_cases hr : (rbInsert s' n).1 = 0
  swap
  · -- the rest of the entry starts where a later one does
    simp only [reinsert, hr, ne_eq, not_false_eq_true, if_true]
    obtain ⟨m, hm, hms⟩ := rbInsert_fst_ne hr
    rw [en] at hms
    have hm₂ : m ∈ l₂ := by
      rw [htree, List.append_cons, ← List.append_assoc] at hm
      rcases List.mem_append.mp hm with hm | hm
      · exact absurd hms (hbelow m hm).ne
      · exact hm
    rw [e₂ m hm₂] at hms
    have hhead : s.entry m ∈ (l₂.map s.entry).head? :=
      t₂.mem_head (List.mem_map_of_mem hm₂) (hms ▸ hbehind)
    refine .panicked fun _ => .inr ⟨rfl, ?_⟩
    rw [hlist, if_pos ⟨s.entry m, hhead, hms⟩]
  have hfree := rbInsert_fst_null hown' hr
  have habove : ∀ m ∈ l₂, e'.physicalStart < (s'.entry m).physicalStart := by
    intro m hm
    have hbm := b₂ m hm
    have hnm := hfree m (by simp [htree, hm])
    rw [en] at hnm
    rw [e₂ m hm] at hnm ⊢
    unfold Before at hbm
    rw [h.start] at hbm
    omega
  have hnone : ¬ ∃ k ∈ (l₂.map s.entry).head?, k.physicalStart = e'.physicalStart := by
    rintro ⟨k, hk, hks⟩
    obtain ⟨m, hm, rfl⟩ := List.mem_map.mp (List.mem_of_mem_head? hk)
    have := habove m hm
    rw [e₂ m hm, hks] at this
    exact absurd this (lt_irrefl _)
  rw [if_neg hnone] at hlist
  have hins : rbInsert s' n =
      (0, s'.link n ((pre ++ (l₁ ++ [old])) ++ n :: l₂)) := by
    refine rbInsert_new ho₂.fresh.1 (by simpa using htree) ?_ ?_
    · rw [en]
      exact hbelow
    · rw [en]
      exact habove
  have hown₃ : Owned T (s'.link n ((pre ++ (l₁ ++ [old])) ++ n :: l₂)) [] free₂ :=
    Owned.link (s := s') hown' (by simpa using htree)
  have hquiet : Quiet s (s'.link n ((pre ++ (l₁ ++ [old])) ++ n :: l₂)) := by
    rw [← hs']
    exact ⟨h.issued.table, h.issued.pages, h.issued.stale⟩
  have hrefills : (s'.link n ((pre ++ (l₁ ++ [old])) ++ n :: l₂)).refills =
      s₂.refills := by
    rw [← hs']
    rfl
  simp only [reinsert, hins, ne_eq, not_true, if_false]
  generalize hs₃ : s'.link n ((pre ++ (l₁ ++ [old])) ++ n :: l₂) = s₃ at *
  have hentry : s₃.entry = s'.entry := by rw [← hs₃, State.link_entry]
  have hpre₃ : FixPre T s₃ (pre ++ (l₁ ++ [old])) n l₂ := by
    refine ⟨hquiet.table ▸ h.pre.complete, ⟨free₂, hown₃⟩, by rw [← hs₃, State.link_tree], ?_, ?_, ?_, ?_⟩
    · rw [hentry, en]
      exact hge'
    · rw [hentry, List.map_congr_left e₂]
      exact t₂
    · intro m hm k hk
      rw [hentry]
      exact (hbelow m hm).trans (habove k hk)
    · intro m hm
      rw [hentry, en]
      exact habove m hm
  have hsettle : settle s₃.overlapPrecedence (s₃.entry n) (l₂.map s₃.entry) =
      settle s.overlapPrecedence e' (l₂.map s.entry) := by
    rw [hquiet.table, hentry, en, List.map_congr_left e₂]
  refine EndsIn.congr ?_ hrefills
  refine ((hfix s₃ hpre₃).weaken fun m hm => hm.mono fun hx => ?_).andThen (hmono s₃)
    (merge_monotone n) ?_
  · rw [hlist, ← hsettle, hx]
    rfl
  rintro u - ⟨post', hu⟩
  refine .returned fun _ => ?_
  have hframe : ∀ m ∈ pre ++ (l₁ ++ [old]), u.entry m = s'.entry m := by
    intro m hm
    rw [hu.frame m hm, hentry]
  have hu₁ : ∀ m ∈ l₁, u.entry m = s.entry m := by
    intro m hm
    rw [hframe m (by simp [hm]), e₁ m hm]
  have huo : u.entry old = o' := by rw [hframe old (by simp), eo]
  have hlater : ∀ m ∈ n :: post', e'.physicalStart ≤ (u.entry m).physicalStart := by
    refine List.forall_mem_cons.mpr ⟨?_, hu.lower _ ?_⟩
    · rw [hu.start, hentry, en]
    · intro m hm
      rw [hentry]
      exact (habove m hm).le
  have hleaves : Leaves T s u pre (e :: (l₁ ++ old :: l₂).map s.entry)
      ((l₁ ++ [old]) ++ n :: post') := by
    refine ⟨hquiet.trans hu.toQuiet, by simpa using hu.tree, hu.owned, ?_, ?_, ?_⟩
    · intro m hm
      rw [hframe m (by simp [hm]), e₀ m hm]
    · have hall : (l₁ ++ [old]) ++ n :: post' = l₁ ++ old :: n :: post' := by simp
      rw [hall, List.map_append, List.map_cons, List.map_congr_left hu₁, huo, tidy_append,
        tidy_cons]
      refine ⟨t₁, ⟨hgo, ?_, hu.tidy⟩, ?_⟩
      · intro b hb
        obtain ⟨m, hm, rfl⟩ := List.mem_map.mp hb
        have := hlater m hm
        unfold Before
        omega
      · intro a ha b hb
        obtain ⟨m, hm, rfl⟩ := List.mem_map.mp ha
        have hbm := b₁ m hm
        unfold Before at hbm ⊢
        rw [h.start] at hbm
        rcases List.mem_cons.mp hb with rfl | hb
        · rw [hostart]
          exact hbm
        · obtain ⟨k, hk, rfl⟩ := List.mem_map.mp hb
          have := hlater k hk
          omega
    · intro x
      have hx := hu.best x
      have hv := hvalue x
      rw [hquiet.table, List.map_cons, List.map_cons, hentry, en, List.map_congr_left e₂,
        Cover.View.bestAt_cons, Cover.View.bestAt_cons] at hx
      simp only [List.map_append, List.map_cons, List.map_nil, List.map_congr_left hu₁, huo,
        Cover.View.bestAt_append, Cover.View.bestAt_cons, Cover.View.bestAt_nil]
      have htop := (view s.overlapPrecedence).bestAt_le_top (l₂.map s.entry) x
      omega
  have hjoin : ∀ post'' : List Ptr, post''.map (mergeAdjacent u n).entry =
      joinAt ((l₁ ++ [old]).map u.entry) (u.entry n) (post'.map u.entry) →
      addTo s.overlapPrecedence e ((l₁ ++ old :: l₂).map s.entry) =
        some (post''.map (mergeAdjacent u n).entry) := by
    intro post'' hpost''
    rw [hlist, ← hsettle, hu.list, hpost'', List.map_append, List.map_cons, List.map_nil,
      List.map_congr_left hu₁, huo]
    rfl
  refine (added_of_merge hleaves (.inr (by simp)) ?_ ?_).imp fun post'' ha => ⟨ha.1, hjoin _ ha.2⟩
  · intro b hb hpost m hm
    rcases List.mem_append.mp hm with hm | hm
    · rcases List.mem_append.mp hm with hm | hm
      · rw [hu₁ m hm]
        exact hpost m (by simp [hm])
      · obtain rfl := List.mem_singleton.mp hm
        rw [huo, hostart]
        exact hb
    · have := hlater m hm
      omega
  · intro a l hal hlt
    obtain ⟨hmem, l', hl₁⟩ := h.head hal hlt
    exact ⟨⟨l' ++ [old], by rw [hl₁, List.cons_append]⟩, by rw [hu₁ a hmem]⟩

/-- The branch of `mmap_add_entry` where an entry has the same start. -/
theorem place_old {fix : Ptr → State → Outcome} (h : Found T s s₂ pre l₁ old l₂ n e)
    (hmono : Monotone (fix n))
    (hfix : ∀ s₃, FixPre T s₃ (pre ++ (l₁ ++ [old])) n l₂ →
      EndsIn (PanicsAs (settle s₃.overlapPrecedence (s₃.entry n) (l₂.map s₃.entry))) s₃
        (fun u => ∃ post', Settled T s₃ u (pre ++ (l₁ ++ [old])) n l₂ post') (fix n s₃)) :
    EndsIn (PanicsAs (addTo s.overlapPrecedence e ((l₁ ++ old :: l₂).map s.entry))) s₂
      (fun u => ∃ post', AddedTo T s u pre (l₁ ++ old :: l₂) e post') (place fix e n s₂) := by
  obtain ⟨free, ho⟩ := h.pre.owned
  have hmem : old ∈ s.tree := by simp [h.pre.tree]
  have hold : s₂.entry old = s.entry old := h.issued.entry_of_mem hmem
  simp only [place, h.rbInsert_eq, ne_eq, ho.ne_null hmem, not_false_eq_true, if_true, placeOld,
    hold, h.issued.table]
  split_ifs with hsame hlonger
  · exact .returned fun _ => h.same hsame rfl
  · exact h.longer hlonger rfl
  · exact h.shorter (by omega) rfl hmono hfix

end Cases

end PlaceOld

section Recursion

variable {T : Target} {s : State} {pre : List Ptr}

/-- `fix_overlap` after the tail of `first` was added behind `second`. -/
theorem FixPre.settled_of_added {first second : Ptr} {rest post' : List Ptr} {u : State}
    (h : FixPre T s pre first (second :: rest))
    (hlt : (s.entry second).physicalStart + (s.entry second).size <
      (s.entry first).physicalStart + (s.entry first).size)
    (hrank : rank s.overlapPrecedence (s.entry second).type <
      rank s.overlapPrecedence (s.entry first).type)
    (ha : AddedTo T (splitted s first second) u (pre ++ [first]) (second :: rest)
      (tailEntry (s.entry first) (s.entry second)) post') :
    Settled T s u pre first (second :: rest) post' ∧ ∃ t, post' = second :: t := by
  obtain ⟨hf, hhead⟩ := h.fixed_of_added hlt hrank.le ha.toAdded
  refine ⟨⟨hf, ?_⟩, hhead⟩
  have hfirst : u.entry first = cutFirst (s.entry first) (s.entry second) := by
    rw [ha.frame first (by simp), h.splitted_entry.1]
  have hlist := ha.list
  change addTo s.overlapPrecedence _ _ = _ at hlist
  rw [h.settle_splitted hlt hrank, hlist, hfirst]
  rfl

/-- `fix_overlap` where only the next entry is reached, and stays. -/
theorem fixOverlap_one {first second : Ptr} {rest : List Ptr}
    (h : FixPre T s pre first (second :: rest))
    (hrest : ∀ m ∈ rest, Before (s.entry first) (s.entry m))
    (hsw : ¬ Swallows s first second) (fuel : ℕ) :
    Succeeds s (fun u => ∃ r, Settled T s u pre first (second :: rest) (second :: r))
      (fixOverlap T (fuel + 3) first s) := by
  rw [fixOverlap]
  refine h.body_endsIn (fun s' hf => ⟨rest, hf⟩) (fun hs => absurd hs hsw) ?_
  intro hlt hrank
  obtain ⟨hn, hs, hb, ht⟩ := h.next
  obtain ⟨e₁, e₂, e₃, e₄⟩ := h.splitted_entry
  have hne := hn.nonempty
  have hpre : AddPre T (splitted s first second) (pre ++ [first]) ([second] ++ rest)
      (tailEntry (s.entry first) (s.entry second)) := h.addPre hlt
  have hgap := addEntry_gap hpre ?_ ?_ fuel
  · refine EndsIn.congr (hgap.mono ?_) rfl
    rintro u ⟨post', ha⟩
    obtain ⟨hf, t, rfl⟩ := h.settled_of_added hlt hrank ha
    exact ⟨t, hf⟩
  · intro m hm
    obtain rfl := List.mem_singleton.mp hm
    rw [e₂]
    simp only [Before, tailEntry]
    exact le_rfl
  · intro m hm
    have := hrest m hm
    rw [e₄ m hm]
    simp only [Before, tailEntry] at *
    omega

/-- What `fix_overlap` does for up to `k` entries behind `first`: it ends in the
list that `settle` gives, or panics where it gives none. -/
def FixSpec (T : Target) (k : ℕ) : Prop :=
  ∀ fuel s pre first post, 2 * k + 3 ≤ fuel → post.length ≤ k → FixPre T s pre first post →
    EndsIn (PanicsAs (settle s.overlapPrecedence (s.entry first) (post.map s.entry))) s
      (fun u => ∃ post', Settled T s u pre first post post') (fixOverlap T fuel first s)

/-- What `mmap_add_entry` does for up to `k` entries behind the new one. -/
def AddSpec (T : Target) (k : ℕ) : Prop :=
  ∀ fuel s pre post e, 2 * k + 4 ≤ fuel →
    (post.filter fun m => e.physicalStart < (s.entry m).physicalStart).length ≤ k →
    AddPre T s pre post e →
    (∀ m ∈ post, ¬ Redundant s.overlapPrecedence e (s.entry m)) →
    EndsIn (PanicsAs (addTo s.overlapPrecedence e (post.map s.entry))) s
      (fun u => ∃ post', AddedTo T s u pre post e post') (mmapAddEntry T fuel e s)

theorem fixSpec_zero (T : Target) : FixSpec T 0 := by
  intro fuel s pre first post hfuel hlen h
  obtain ⟨fuel, rfl⟩ : ∃ k, fuel = k + 1 := ⟨fuel - 1, by omega⟩
  obtain rfl : post = [] := List.eq_nil_of_length_eq_zero (by omega)
  rw [fixOverlap_apart h (by simp)]
  exact .returned fun _ => ⟨[], h.refl_settled (by simp)⟩

theorem fixSpec_succ {k : ℕ} (hfix : FixSpec T k) (hadd : AddSpec T k) : FixSpec T (k + 1) := by
  intro fuel s pre first post hfuel hlen h
  obtain ⟨fuel, rfl⟩ : ∃ j, fuel = j + 1 := ⟨fuel - 1, by omega⟩
  cases post with
  | nil =>
    rw [fixOverlap_apart h (by simp)]
    exact .returned fun _ => ⟨[], h.refl_settled (by simp)⟩
  | cons second rest =>
    rw [List.length_cons] at hlen
    rw [fixOverlap]
    refine h.body_endsIn (fun s' hf => ⟨_, hf⟩) ?_ ?_
    · intro hsw
      rw [FixPre.settle_dropped hsw]
      refine EndsIn.congr ((hfix fuel _ pre first rest (by omega) (by omega) h.dropped).mono ?_) rfl
      rintro u ⟨post', hf⟩
      refine ⟨post', FixPre.fixed_of_dropped hsw hf.toFixed, ?_⟩
      rw [FixPre.settle_dropped hsw]
      exact hf.list
    · intro hlt hrank
      obtain ⟨hn, hs, hb, ht⟩ := h.next
      obtain ⟨e₁, e₂, e₃, e₄⟩ := h.splitted_entry
      have hne := hn.nonempty
      have hlen' : ((second :: rest).filter fun m =>
          (tailEntry (s.entry first) (s.entry second)).physicalStart <
            ((splitted s first second).entry m).physicalStart).length ≤ k := by
        rw [List.filter_cons_of_neg (by rw [e₂]; simp [tailEntry])]
        exact (List.length_filter_le _ _).trans (by omega)
      have hspec := hadd fuel _ _ _ _ (by omega) hlen' (h.addPre hlt) ?_
      · refine EndsIn.congr ((hspec.weaken fun m hm => hm.mono fun hx => ?_).mono ?_) rfl
        · change addTo s.overlapPrecedence _ _ = none at hx
          rw [h.settle_splitted hlt hrank, hx]
          rfl
        · rintro u ⟨post', ha⟩
          exact ⟨post', (h.settled_of_added hlt hrank ha).1⟩
      · intro m hm hred
        obtain ⟨hr₁, hr₂, -⟩ := hred
        rcases List.mem_cons.mp hm with rfl | hm
        · rw [e₂] at hr₂
          simp only [tailEntry] at hr₂
          omega
        · have hbm := hb _ (List.mem_map_of_mem hm)
          rw [e₄ m hm] at hr₁
          simp only [Before, tailEntry] at hr₁ hbm
          omega

/-- The entry in front is not cut back by a new entry inside it, unless the new
entry is `Redundant`. -/
theorem not_swallows {t : State} {p n : Ptr} {e : MemoryMapEntry} {l : List Ptr}
    (htable : t.overlapPrecedence = s.overlapPrecedence) (hp : t.entry p = s.entry p)
    (hstart : (t.entry n).physicalStart = e.physicalStart) (htype : (t.entry n).type = e.type)
    (hwhole : t.entry n = e ∨ ∃ m ∈ l,
      (t.entry n).physicalStart + (t.entry n).size = (s.entry m).physicalStart)
    (hbefore : ∀ m ∈ l, Before (s.entry p) (s.entry m))
    (hred : ¬ Redundant s.overlapPrecedence e (s.entry p)) : ¬ Swallows t p n := by
  rintro ⟨h₁, h₂, h₃⟩
  rw [htable, hp, htype] at h₃
  rw [hp] at h₁ h₂
  rcases hwhole with hw | ⟨m, hm, hw⟩
  · rw [hw] at h₁ h₂
    exact hred ⟨h₁, h₂, h₃⟩
  · have := hbefore m hm
    unfold Before at this
    omega

/-- What `mmap_add_entry` does once a node is issued and filled. -/
theorem place_spec {k fuel : ℕ} {s₂ : State} {n : Ptr} {post : List Ptr} {e : MemoryMapEntry}
    (hfix : FixSpec T k) (hfuel : 2 * k + 3 ≤ fuel)
    (hlen : (post.filter fun m => e.physicalStart < (s.entry m).physicalStart).length ≤ k)
    (h : AddPre T s pre post e)
    (hred : ∀ m ∈ post, ¬ Redundant s.overlapPrecedence e (s.entry m))
    (hi : Issued T s s₂ n e) :
    EndsIn (PanicsAs (addTo s.overlapPrecedence e (post.map s.entry))) s₂
      (fun u => ∃ post', AddedTo T s u pre post e post') (place (fixOverlap T fuel) e n s₂) := by
  obtain ⟨fuel, rfl⟩ : ∃ j, fuel = j + 3 := ⟨fuel - 3, by omega⟩
  have hmono := (addEntry_monotone T (fuel + 3)).1
  rcases Links.split_at_key h.tidy.sorted e.physicalStart with
    ⟨l₁, old, l₂, rfl, hkey, hlt₁, hlt₂⟩ | ⟨l₁, l₂, rfl, hlt₁, hlt₂⟩
  · have hlen₂ : l₂.length ≤ k := by
      rw [List.append_cons, Links.filter_above ?_ hlt₂] at hlen
      · exact hlen
      · intro m hm
        rcases List.mem_append.mp hm with hm | hm
        · exact (hlt₁ m hm).le
        · rw [List.mem_singleton.mp hm, hkey]
    exact place_old ⟨h, hi, hkey, hlt₁, hlt₂⟩ (hmono n)
      fun s₃ hpre => hfix _ _ _ _ _ (by omega) hlen₂ hpre
  · have hlen₂ : l₂.length ≤ k := by
      rwa [Links.filter_above (fun m hm => (hlt₁ m hm).le) hlt₂] at hlen
    have hred₁ : ∀ m ∈ l₁, ¬ Redundant s.overlapPrecedence e (s.entry m) :=
      fun m hm => hred m (List.mem_append_left _ hm)
    refine place_new h hi hlt₁ hlt₂ hred₁ hmono (fixOverlap_null T (fuel + 2)) ?_ ?_
    · intro s₃ hpre htable hn he₂
      refine (hfix _ _ _ _ _ (by omega) hlen₂ hpre).weaken fun m hm => hm.mono fun hx => ?_
      rw [htable, hn, List.map_congr_left he₂] at hx
      rw [List.map_append, addTo_between ?_ (by simpa using hlt₁) (by simpa using hlt₂), between, hx]
      · rfl
      · rw [← List.map_append]
        intro k hk
        obtain ⟨m, hm, rfl⟩ := List.mem_map.mp hk
        exact hred m hm
    · intro t l₂' l p hcat hpre hpt htable hstart htype hwhole hafter
      have hp : p ∈ l₁ := by simp [hcat]
      have htidy := h.tidy
      rw [List.map_append, tidy_append] at htidy
      refine (fixOverlap_one hpre (fun m hm => hpt ▸ hafter m hm) ?_ fuel).weaken fun m hm => .inl hm
      refine not_swallows htable hpt hstart htype hwhole ?_ (hred p (by simp [hp]))
      intro m hm
      exact htidy.2.2 _ (List.mem_map_of_mem hp) _ (List.mem_map_of_mem hm)

theorem addSpec_of_fixSpec {k : ℕ} (hfix : FixSpec T k) : AddSpec T k := by
  intro fuel s pre post e hfuel hlen h hred
  obtain ⟨fuel, rfl⟩ : ∃ j, fuel = j + 1 := ⟨fuel - 1, by omega⟩
  obtain ⟨free, ho⟩ := h.owned
  rw [mmapAddEntry_aligned T fuel h.good]
  refine insertEntry_endsIn (.inl rfl) ho (addEntry_monotone T fuel).1 ?_ ?_
  · rintro t ⟨post', hp⟩
    exact ⟨post', hp.bumpKey⟩
  · intro n s₂ hi _
    exact place_spec hfix (by omega) hlen h hred hi

theorem addSpec (T : Target) (k : ℕ) : FixSpec T k ∧ AddSpec T k := by
  induction k with
  | zero => exact ⟨fixSpec_zero T, addSpec_of_fixSpec (fixSpec_zero T)⟩
  | succ k ih =>
    have hfix := fixSpec_succ ih.1 ih.2
    exact ⟨hfix, addSpec_of_fixSpec hfix⟩

end Recursion

end Gandr.Mmap

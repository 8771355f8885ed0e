import Gandr.Mmap.Tidy

/-! The type stored for an address, and maps in which no two touching entries
have the same type. Such a map is the only one with its types, and merging
around one entry restores it. -/

namespace Gandr.Mmap

/-- The type stored for the address `x`. -/
def typeAt (es : List MemoryMapEntry) (x : ℕ) : Option MemoryType :=
  (es.find? fun e => e.physicalStart ≤ x ∧ x < e.physicalStart + e.size).map MemoryMapEntry.type

/-- `a` does not end where `b` starts, or has another type. -/
def Separate (a b : MemoryMapEntry) : Prop :=
  a.type = b.type → a.physicalStart + a.size ≠ b.physicalStart

def Maximal (es : List MemoryMapEntry) : Prop := es.Pairwise Separate

instance : DecidableRel Separate := fun _ _ => inferInstanceAs (Decidable (_ → _ ≠ _))

instance (es : List MemoryMapEntry) : Decidable (Maximal es) :=
  inferInstanceAs (Decidable (es.Pairwise Separate))

/-- What a reader of the map sees of an entry. -/
def range (e : MemoryMapEntry) : ℕ × ℕ × MemoryType := (e.physicalStart, e.size, e.type)

section TypeAt

variable {es fs : List MemoryMapEntry} {e m : MemoryMapEntry} {x : ℕ} {t : MemoryType}

theorem typeAt_nil (x : ℕ) : typeAt [] x = none := rfl

theorem typeAt_cons (e : MemoryMapEntry) (es : List MemoryMapEntry) (x : ℕ) :
    typeAt (e :: es) x = if e.physicalStart ≤ x ∧ x < e.physicalStart + e.size then some e.type
      else typeAt es x := by
  unfold typeAt
  by_cases h : e.physicalStart ≤ x ∧ x < e.physicalStart + e.size
  · rw [List.find?_cons_of_pos (by simpa using h), if_pos h]
    rfl
  · rw [List.find?_cons_of_neg (by simpa using h), if_neg h]

theorem typeAt_append (es fs : List MemoryMapEntry) (x : ℕ) :
    typeAt (es ++ fs) x = (typeAt es x).or (typeAt fs x) := by
  induction es with
  | nil => simp [typeAt_nil]
  | cons e es ih =>
    rw [List.cons_append, typeAt_cons, typeAt_cons, ih]
    split_ifs <;> simp

theorem typeAt_some (h : typeAt es x = some t) :
    ∃ e ∈ es, e.physicalStart ≤ x ∧ x < e.physicalStart + e.size ∧ e.type = t := by
  induction es with
  | nil => simp [typeAt_nil] at h
  | cons e es ih =>
    rw [typeAt_cons] at h
    split_ifs at h with hx
    · exact ⟨e, List.mem_cons_self, hx.1, hx.2, Option.some.inj h⟩
    · obtain ⟨m, hm, hm'⟩ := ih h
      exact ⟨m, List.mem_cons_of_mem _ hm, hm'⟩

/-- In a tidy map no other entry has the address. -/
theorem typeAt_of_mem (h : Tidy es) (hm : e ∈ es) (h₁ : e.physicalStart ≤ x)
    (h₂ : x < e.physicalStart + e.size) : typeAt es x = some e.type := by
  induction es with
  | nil => simp at hm
  | cons a es ih =>
    obtain ⟨-, hb, ht⟩ := tidy_cons.mp h
    rw [typeAt_cons]
    rcases List.mem_cons.mp hm with rfl | hm
    · rw [if_pos ⟨h₁, h₂⟩]
    · have := hb e hm
      unfold Before at this
      rw [if_neg (by omega), ih ht hm]

theorem typeAt_none (h : ∀ e ∈ es, ¬ (e.physicalStart ≤ x ∧ x < e.physicalStart + e.size)) :
    typeAt es x = none := by
  cases ht : typeAt es x with
  | none => rfl
  | some t =>
    obtain ⟨e, he, h₁, h₂, -⟩ := typeAt_some ht
    exact absurd ⟨h₁, h₂⟩ (h e he)

/-- The entries in front of `b` have no address from its start on. -/
theorem typeAt_front {b : MemoryMapEntry} (h : ∀ a ∈ es, Before a b) (hx : b.physicalStart ≤ x) :
    typeAt es x = none := by
  refine typeAt_none ?_
  rintro a ha ⟨-, h₂⟩
  have := h a ha
  unfold Before at this
  omega

theorem typeAt_back {b : MemoryMapEntry} (h : ∀ a ∈ es, Before b a)
    (hx : x < b.physicalStart + b.size) : typeAt es x = none := by
  refine typeAt_none ?_
  rintro a ha ⟨h₁, -⟩
  have := h a ha
  unfold Before at this
  omega

end TypeAt

/-- The rank of an optional type, `table.length` for none. -/
def rankOf (table : List MemoryType) (t : Option MemoryType) : ℕ :=
  (t.map (rank table)).getD table.length

theorem rankOf_le {table : List MemoryType} (t : Option MemoryType) :
    rankOf table t ≤ table.length := by
  cases t with
  | none => exact le_rfl
  | some t => exact rank_le table t

theorem rankOf_inj {table : List MemoryType} (h : Complete table) {t u : Option MemoryType}
    (htu : rankOf table t = rankOf table u) : t = u := by
  cases t with
  | none =>
    cases u with
    | none => rfl
    | some u => exact absurd htu.symm (rank_lt h u).ne
  | some t =>
    cases u with
    | none => exact absurd htu (rank_lt h t).ne
    | some u => exact congrArg some (rank_inj h htu)

/-- In a tidy list one entry at most has the address. -/
theorem best_tidy {table : List MemoryType} {es : List MemoryMapEntry} (h : Tidy es) (x : ℕ) :
    (view table).bestAt es x = rankOf table (typeAt es x) := by
  induction es with
  | nil => rfl
  | cons e es ih =>
    obtain ⟨hg, hb, ht⟩ := tidy_cons.mp h
    rw [Cover.View.bestAt_cons, valueAt_view, typeAt_cons, ih ht]
    by_cases hx : e.physicalStart ≤ x ∧ x < e.physicalStart + e.size
    · rw [if_pos hx, if_pos hx, typeAt_back hb hx.2]
      exact min_eq_left (rank_le table e.type)
    · rw [if_neg hx, if_neg hx]
      exact min_eq_right (rankOf_le _)

section Unique

variable {es fs : List MemoryMapEntry} {a b : MemoryMapEntry}

theorem start_le_of_typeAt (he : Tidy (a :: es)) (hf : Tidy (b :: fs))
    (h : ∀ x, typeAt (a :: es) x = typeAt (b :: fs) x) : b.physicalStart ≤ a.physicalStart := by
  have hne := (he.good a List.mem_cons_self).nonempty
  have ha := typeAt_of_mem he List.mem_cons_self (le_refl a.physicalStart) (by omega)
  rw [h] at ha
  obtain ⟨m, hm, h₁, -, -⟩ := typeAt_some ha
  rcases List.mem_cons.mp hm with rfl | hm
  · exact h₁
  · have := (tidy_cons.mp hf).2.1 m hm
    unfold Before at this
    omega

theorem end_le_of_typeAt (he : Tidy (a :: es)) (hf : Tidy (b :: fs)) (hmax : Maximal (a :: es))
    (hstart : a.physicalStart = b.physicalStart) (htype : a.type = b.type)
    (h : ∀ x, typeAt (a :: es) x = typeAt (b :: fs) x) : b.size ≤ a.size := by
  by_contra hlt
  have hb := typeAt_of_mem hf List.mem_cons_self (x := a.physicalStart + a.size) (by omega)
    (by omega)
  rw [← h] at hb
  obtain ⟨m, hm, h₁, h₂, h₃⟩ := typeAt_some hb
  rcases List.mem_cons.mp hm with rfl | hm
  · omega
  · -- the entry that has the address touches `a` and has its type
    have hbm := (tidy_cons.mp he).2.1 m hm
    have hsep := (List.pairwise_cons.mp hmax).1 m hm (htype.trans h₃.symm)
    unfold Before at hbm
    omega

theorem typeAt_tail (he : Tidy (a :: es)) (x : ℕ) : typeAt es x =
    if a.physicalStart ≤ x ∧ x < a.physicalStart + a.size then none else typeAt (a :: es) x := by
  rw [typeAt_cons]
  split_ifs with hx
  · exact typeAt_back (tidy_cons.mp he).2.1 hx.2
  · rfl

/-- A map without touching entries of one type is determined by its types. -/
theorem ranges_eq_of_typeAt (he : Tidy es) (hf : Tidy fs) (me : Maximal es) (mf : Maximal fs)
    (h : ∀ x, typeAt es x = typeAt fs x) : es.map range = fs.map range := by
  induction es generalizing fs with
  | nil =>
    cases fs with
    | nil => rfl
    | cons b fs =>
      have hne := (hf.good b List.mem_cons_self).nonempty
      have hb := typeAt_of_mem hf List.mem_cons_self (le_refl b.physicalStart) (by omega)
      rw [← h, typeAt_nil] at hb
      exact absurd hb (by simp)
  | cons a es ih =>
    have hne := (he.good a List.mem_cons_self).nonempty
    have ha := typeAt_of_mem he List.mem_cons_self (le_refl a.physicalStart) (by omega)
    cases fs with
    | nil =>
      rw [h, typeAt_nil] at ha
      exact absurd ha (by simp)
    | cons b fs =>
      have hstart : a.physicalStart = b.physicalStart :=
        le_antisymm (start_le_of_typeAt hf he fun x => (h x).symm) (start_le_of_typeAt he hf h)
      have htype : a.type = b.type := by
        have hneb := (hf.good b List.mem_cons_self).nonempty
        have hb := typeAt_of_mem hf List.mem_cons_self (le_refl b.physicalStart) (by omega)
        rw [h, hstart, hb] at ha
        exact (Option.some.inj ha).symm
      have hsize : a.size = b.size :=
        le_antisymm (end_le_of_typeAt hf he mf hstart.symm htype.symm fun x => (h x).symm)
          (end_le_of_typeAt he hf me hstart htype h)
      have htail : ∀ x, typeAt es x = typeAt fs x := by
        intro x
        rw [typeAt_tail he, typeAt_tail hf, h, hstart, hsize]
      rw [List.map_cons, List.map_cons, ih (tidy_cons.mp he).2.2 (tidy_cons.mp hf).2.2
        (List.pairwise_cons.mp me).2 (List.pairwise_cons.mp mf).2 htail]
      simp only [range, hstart, hsize, htype]

/-- In a maximal map a range of one type lies in one entry. -/
theorem held_in_one {lo hi : ℕ} {t : MemoryType} (he : Tidy es) (me : Maximal es) (hlt : lo < hi)
    (h : ∀ x, lo ≤ x → x < hi → typeAt es x = some t) :
    ∃ m ∈ es, m.type = t ∧ m.physicalStart ≤ lo ∧ hi ≤ m.physicalStart + m.size := by
  obtain ⟨m, hm, h₁, h₂, h₃⟩ := typeAt_some (h lo le_rfl hlt)
  refine ⟨m, hm, h₃, h₁, ?_⟩
  by_contra hend
  obtain ⟨k, hk, k₁, k₂, k₃⟩ := typeAt_some (h (m.physicalStart + m.size) (by omega) (by omega))
  obtain ⟨l₁, l₂, rfl⟩ := List.append_of_mem hm
  obtain ⟨-, hml, hc⟩ := tidy_append.mp he
  obtain ⟨hg, hb, -⟩ := tidy_cons.mp hml
  have hne := hg.nonempty
  rcases List.mem_append.mp hk with hk | hk
  · have := hc k hk m List.mem_cons_self
    unfold Before at this
    omega
  · rcases List.mem_cons.mp hk with rfl | hk
    · omega
    · have hbk := hb k hk
      have hsep := (List.pairwise_cons.mp (List.pairwise_append.mp me).2.1).1 k hk
        (h₃.trans k₃.symm)
      unfold Before at hbk
      omega

end Unique

section Merging

variable {T : Target} {s : State} {free q r : List Ptr} {kept gone mid : Ptr}
  {es fs : List MemoryMapEntry} {m : MemoryMapEntry}

/-- Only the entry next to `m` can touch it. -/
theorem maximal_middle (h : Tidy (es ++ m :: fs)) (me : Maximal es) (mf : Maximal fs)
    (hprev : ∀ a ∈ es, Separate a m) (hnext : ∀ b ∈ fs, Separate m b) :
    Maximal (es ++ m :: fs) := by
  refine List.pairwise_append.mpr ⟨me, List.pairwise_cons.mpr ⟨hnext, mf⟩, ?_⟩
  obtain ⟨-, hm, hc⟩ := tidy_append.mp h
  obtain ⟨hg, hb, -⟩ := tidy_cons.mp hm
  have hne := hg.nonempty
  intro a ha b hb'
  rcases List.mem_cons.mp hb' with rfl | hb'
  · exact hprev a ha
  · have h₁ := hc a ha m List.mem_cons_self
    have h₂ := hb b hb'
    unfold Before at h₁ h₂
    intro _
    omega

theorem separate_last {p : MemoryMapEntry} (h : Tidy (es ++ p :: m :: fs)) (hp : Separate p m) :
    ∀ a ∈ es ++ [p], Separate a m := by
  obtain ⟨-, hpm, hc⟩ := tidy_append.mp h
  obtain ⟨hg, hb, -⟩ := tidy_cons.mp hpm
  have hne := hg.nonempty
  intro a ha
  rcases List.mem_append.mp ha with ha | ha
  · have h₁ := hc a ha p List.mem_cons_self
    have h₂ := hb m List.mem_cons_self
    unfold Before at h₁ h₂
    intro _
    omega
  · obtain rfl := List.mem_singleton.mp ha
    exact hp

theorem separate_first {n : MemoryMapEntry} (h : Tidy (m :: n :: fs)) (hn : Separate m n) :
    ∀ b ∈ n :: fs, Separate m b := by
  obtain ⟨-, hb, hnf⟩ := tidy_cons.mp h
  obtain ⟨hg, hb', -⟩ := tidy_cons.mp hnf
  have hne := hg.nonempty
  refine List.forall_mem_cons.mpr ⟨hn, fun b hbm => ?_⟩
  have h₁ := hb n List.mem_cons_self
  have h₂ := hb' b hbm
  unfold Before at h₁ h₂
  intro _
  omega

theorem separate_of_not_joins {a b : MemoryMapEntry} (h : Good a) (hj : ¬ Joins a b) :
    Separate a b := by
  intro htype hend
  exact hj ⟨htype, h.physicalEnd.trans hend⟩

/-- What is separate from `b` is separate from `a` joined with `b`. -/
theorem separate_join {a b k : MemoryMapEntry} (ha : Good a) (hb : Good b) (hj : Joins a b)
    (h : Separate b k) : Separate (join a b) k := by
  intro htype hend
  refine h (hj.1.symm.trans htype) ?_
  have hab : a.physicalStart + a.size = b.physicalStart := ha.physicalEnd ▸ hj.2
  rw [join_size ha hb hj] at hend
  change a.physicalStart + _ = _ at hend
  omega

theorem maximal_joinNext (h : Tidy (es ++ m :: fs)) (me : Maximal es) (mf : Maximal fs)
    (hprev : ∀ a ∈ es, Separate a m) : Maximal (es ++ joinNext m fs) := by
  cases fs with
  | nil => exact maximal_middle h me mf hprev (by simp)
  | cons n fs =>
    have hmn := (tidy_append.mp h).2.1
    obtain ⟨hg, -, hn⟩ := tidy_cons.mp hmn
    rw [joinNext]
    split_ifs with hj
    · obtain ⟨hsep, mf⟩ := List.pairwise_cons.mp mf
      refine maximal_middle (tidy_join h hj) me mf hprev ?_
      intro b hb
      exact separate_join hg (tidy_cons.mp hn).1 hj (hsep b hb)
    · exact maximal_middle h me mf hprev (separate_first hmn (separate_of_not_joins hg hj))

theorem maximal_joinFirst (h : Tidy (m :: fs)) (mf : Maximal fs) : Maximal (joinNext m fs) := by
  have hjoined : Maximal ([] ++ joinNext m fs) := maximal_joinNext h .nil mf (by simp)
  exact hjoined

/-- Joining around `m` restores a list that was maximal on both sides of it. -/
theorem maximal_joinAt (h : Tidy (es ++ m :: fs)) (me : Maximal es) (mf : Maximal fs) :
    Maximal (joinAt es m fs) := by
  rcases List.eq_nil_or_concat es with rfl | ⟨es, p, rfl⟩
  · exact maximal_joinFirst h mf
  · rw [List.concat_eq_append] at h me ⊢
    have hp : Tidy (es ++ p :: m :: fs) := by simpa using h
    have hg : Good p := hp.good p (by simp)
    rw [joinAt_concat]
    split_ifs with hj
    · obtain ⟨me, -, hsep⟩ := List.pairwise_append.mp me
      refine maximal_joinNext (tidy_join hp hj) me mf ?_
      intro a ha
      have hap : Separate a p := hsep a ha p List.mem_cons_self
      exact hap
    · have hprev := separate_last hp (separate_of_not_joins hg hj)
      simpa using maximal_joinNext h me mf hprev

/-- `merge_adjacent` around `mid` keeps the types, and restores a maximal map. -/
theorem mergeAdjacent_settles (hc : Complete s.overlapPrecedence) (ho : Owned T s [] free)
    (ht : s.tree = q ++ mid :: r) (h : Tidy s.entries) :
    WellFormed T (mergeAdjacent s mid) ∧
      (Maximal (q.map s.entry) → Maximal (r.map s.entry) →
        Maximal (mergeAdjacent s mid).entries) ∧
      Quiet s (mergeAdjacent s mid) ∧
      ∀ x, typeAt (mergeAdjacent s mid).entries x = typeAt s.entries x := by
  have ht' : s.tree = [] ++ (q ++ mid :: r) := ht
  have hmap : s.entries = (q ++ mid :: r).map s.entry := by rw [State.entries, ht]
  obtain ⟨l', hm, -⟩ := mergeAdjacent_merged ho ht' (.inl rfl) (hmap ▸ h)
  have hentries : (mergeAdjacent s mid).entries = l'.map (mergeAdjacent s mid).entry := by
    rw [State.entries, hm.tree]
    rfl
  refine ⟨⟨hm.table ▸ hc, hm.owned, hentries ▸ hm.tidy⟩, ?_, hm.toQuiet, ?_⟩
  · intro mq mr
    rw [mergeAdjacent_entries ho ht]
    rw [hmap, List.map_append, List.map_cons] at h
    exact maximal_joinAt h mq mr
  intro x
  have hbest := hm.best x
  rw [← hmap, best_tidy hm.tidy, best_tidy h] at hbest
  rw [hentries]
  exact rankOf_inj hc hbest

theorem absorb_kept (ho : Owned T s [] free) (ht : s.tree = q ++ kept :: gone :: r) {m : Ptr}
    (hm : m ∈ s.tree) (hk : m ≠ kept) (hg : m ≠ gone) :
    m ∈ (absorb s kept gone).tree ∧ (absorb s kept gone).entry m = s.entry m := by
  rw [absorb_eq ho ht]
  refine ⟨?_, Function.update_of_ne hk _ _⟩
  rw [ht] at hm
  simp only [List.mem_append, List.mem_cons] at hm
  change m ∈ q ++ kept :: r
  simp only [List.mem_append, List.mem_cons]
  tauto

theorem mergeNext_kept (ho : Owned T s [] free) (ht : s.tree = q ++ mid :: r) {m : Ptr}
    (hm : m ∈ s.tree) (hne : m ≠ mid) (htype : (s.entry m).type ≠ (s.entry mid).type) :
    m ∈ (mergeNext s mid (r.headD 0)).tree ∧
      (mergeNext s mid (r.headD 0)).entry m = s.entry m := by
  unfold mergeNext
  split_ifs with hmerge
  · cases r with
    | nil => simp at hmerge
    | cons next r =>
      refine absorb_kept ho ht hm hne ?_
      rintro rfl
      exact htype hmerge.2.1.symm
  · exact ⟨hm, rfl⟩

/-- Only `mid` and neighbours of its type are touched. -/
theorem mergeAdjacent_kept (ho : Owned T s [] free) (ht : s.tree = q ++ mid :: r)
    (h : Tidy s.entries) {m : Ptr} (hm : m ∈ s.tree) (hne : m ≠ mid)
    (htype : (s.entry m).type ≠ (s.entry mid).type) :
    m ∈ (mergeAdjacent s mid).tree ∧ (mergeAdjacent s mid).entry m = s.entry m := by
  rcases mergeAdjacent_cases ho ht with ⟨q', p, rfl, hmerge, heq⟩ | ⟨-, heq⟩
  · have ht' : s.tree = [] ++ (q' ++ p :: mid :: r) := by simpa using ht
    have hpt : Tidy ((q' ++ p :: mid :: r).map s.entry) := by
      rw [State.entries, ht] at h
      simpa using h
    have hp : m ≠ p := by
      rintro rfl
      exact htype hmerge.1
    obtain ⟨hl, -⟩ := absorb_leaves ho ht' hpt hmerge
    obtain ⟨free', ho'⟩ := hl.owned
    obtain ⟨hm', he⟩ := absorb_kept ho ht' hm hp hne
    have hptype : ((absorb s p mid).entry p).type = (s.entry mid).type := by
      have hgrown : (absorb s p mid).entry p = grown s p mid := by
        rw [absorb_eq ho ht']
        exact Function.update_self ..
      rw [hgrown]
      exact hmerge.1
    rw [heq]
    obtain ⟨h₁, h₂⟩ := mergeNext_kept ho' hl.tree hm' hp (by rw [he, hptype]; exact htype)
    exact ⟨h₁, h₂.trans he⟩
  · rw [heq]
    exact mergeNext_kept ho ht hm hne htype

end Merging

end Gandr.Mmap

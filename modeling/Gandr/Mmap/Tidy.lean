import Gandr.Lib.Cover
import Gandr.Mmap.Own

/-! Well-formed lists of map entries, and the effect of merging on them. The
functions of the map work on a suffix of the tree, so their effect is stated
for a list of nodes after a prefix `pre` that stays as it is. -/

namespace Gandr.Mmap

structure Good (e : MemoryMapEntry) : Prop where
  startAligned : e.physicalStart % 4096 = 0
  sizeAligned : e.size % 4096 = 0
  nonempty : 0 < e.size
  fits : e.physicalStart + e.size < 2^64

/-- `a` ends at or before the start of `b`. -/
def Before (a b : MemoryMapEntry) : Prop := a.physicalStart + a.size ≤ b.physicalStart

/-- Page-aligned, non-empty, disjoint and in increasing order. -/
structure Tidy (es : List MemoryMapEntry) : Prop where
  good : ∀ e ∈ es, Good e
  apart : es.Pairwise Before

/-- The map as the calls from outside find it and leave it. -/
structure WellFormed (T : Target) (s : State) : Prop where
  complete : Complete s.overlapPrecedence
  owned : ∃ free, Owned T s [] free
  tidy : Tidy s.entries

theorem WellFormed.bumpKey {T : Target} {s : State} (h : WellFormed T s) :
    WellFormed T s.bumpKey := by
  obtain ⟨free, ho⟩ := h.owned
  exact ⟨h.complete, ⟨free, ho.bumpKey⟩, h.tidy⟩

/-- Entries as ranked intervals, under a precedence table. -/
def view (table : List MemoryType) : Cover.View MemoryMapEntry where
  lo e := e.physicalStart
  hi e := e.physicalStart + e.size
  rank e := rank table e.type
  top := table.length

theorem valueAt_view (table : List MemoryType) (e : MemoryMapEntry) (x : ℕ) :
    (view table).valueAt e x =
      if e.physicalStart ≤ x ∧ x < e.physicalStart + e.size then rank table e.type
      else table.length := rfl

theorem Good.physicalEnd {e : MemoryMapEntry} (h : Good e) :
    e.physicalEnd = e.physicalStart + e.size := Word.add_of_lt h.fits

theorem tidy_nil : Tidy [] := ⟨by simp, List.Pairwise.nil⟩

theorem tidy_cons {e : MemoryMapEntry} {es : List MemoryMapEntry} :
    Tidy (e :: es) ↔ Good e ∧ (∀ b ∈ es, Before e b) ∧ Tidy es := by
  constructor
  · rintro ⟨hg, hp⟩
    obtain ⟨hb, hp⟩ := List.pairwise_cons.mp hp
    exact ⟨hg e List.mem_cons_self, hb, fun b hm => hg b (List.mem_cons_of_mem _ hm), hp⟩
  · rintro ⟨hg, hb, ht⟩
    exact ⟨List.forall_mem_cons.mpr ⟨hg, ht.good⟩, List.pairwise_cons.mpr ⟨hb, ht.apart⟩⟩

theorem tidy_append {es fs : List MemoryMapEntry} :
    Tidy (es ++ fs) ↔ Tidy es ∧ Tidy fs ∧ ∀ a ∈ es, ∀ b ∈ fs, Before a b := by
  constructor
  · rintro ⟨hg, hp⟩
    obtain ⟨h₁, h₂, h₃⟩ := List.pairwise_append.mp hp
    exact ⟨⟨fun e he => hg e (List.mem_append_left _ he), h₁⟩,
      ⟨fun e he => hg e (List.mem_append_right _ he), h₂⟩, h₃⟩
  · rintro ⟨h₁, h₂, h₃⟩
    refine ⟨fun e he => ?_, List.pairwise_append.mpr ⟨h₁.apart, h₂.apart, h₃⟩⟩
    rcases List.mem_append.mp he with he | he
    · exact h₁.good e he
    · exact h₂.good e he

/-- In a tidy list the starts increase. -/
theorem Tidy.sorted {l : List Ptr} {s : State} (h : Tidy (l.map s.entry)) :
    l.Pairwise fun a b => (s.entry a).physicalStart < (s.entry b).physicalStart := by
  have hp := List.pairwise_map.mp h.apart
  refine hp.imp_of_mem ?_
  intro a b ha _ hab
  have := (h.good _ (List.mem_map_of_mem ha)).nonempty
  unfold Before at hab
  omega

theorem update_of_mem {l : List Ptr} {f : Ptr → MemoryMapEntry} {n m : Ptr}
    {e : MemoryMapEntry} (h : n ∉ l) (hm : m ∈ l) : Function.update f n e m = f m := by
  refine Function.update_of_ne ?_ _ _
  rintro rfl
  exact h hm

theorem map_update {l : List Ptr} {f : Ptr → MemoryMapEntry} {n : Ptr} {e : MemoryMapEntry}
    (h : n ∉ l) : l.map (Function.update f n e) = l.map f := by
  apply List.map_congr_left
  intro m hm
  exact update_of_mem h hm

/-- After `pre` the call left the nodes `l'`, which read like the entries `es`. -/
structure Leaves (T : Target) (s s' : State) (pre : List Ptr) (es : List MemoryMapEntry)
    (l' : List Ptr) : Prop extends Quiet s s' where
  tree : s'.tree = pre ++ l'
  owned : ∃ free, Owned T s' [] free
  frame : ∀ m ∈ pre, s'.entry m = s.entry m
  tidy : Tidy (l'.map s'.entry)
  best : ∀ x, (view s.overlapPrecedence).bestAt (l'.map s'.entry) x =
    (view s.overlapPrecedence).bestAt es x

theorem Leaves.trans {T : Target} {s t u : State} {pre l l' : List Ptr}
    {es : List MemoryMapEntry} (h : Leaves T s t pre es l)
    (h' : Leaves T t u pre (l.map t.entry) l') : Leaves T s u pre es l' where
  toQuiet := h.toQuiet.trans h'.toQuiet
  tree := h'.tree
  owned := h'.owned
  frame m hm := (h'.frame m hm).trans (h.frame m hm)
  tidy := h'.tidy
  best x := by
    have hx := h'.best x
    rw [h.table] at hx
    rw [hx, h.best x]

theorem Leaves.rfl' {T : Target} {s : State} {pre l free : List Ptr} (ho : Owned T s [] free)
    (ht : s.tree = pre ++ l) (h : Tidy (l.map s.entry)) :
    Leaves T s s pre (l.map s.entry) l :=
  ⟨Quiet.refl s, ht, ⟨free, ho⟩, fun _ _ => rfl, h, fun _ => rfl⟩

/-- `Mergeable` and `grown` as they read on entries. -/
def Joins (a b : MemoryMapEntry) : Prop := a.type = b.type ∧ a.physicalEnd = b.physicalStart

instance (a b : MemoryMapEntry) : Decidable (Joins a b) := inferInstanceAs (Decidable (_ ∧ _))

def join (a b : MemoryMapEntry) : MemoryMapEntry := { a with size := Word.add 64 a.size b.size }

def joinNext (m : MemoryMapEntry) : List MemoryMapEntry → List MemoryMapEntry
  | [] => [m]
  | n :: r => if Joins m n then join m n :: r else m :: n :: r

/-- What `merge_adjacent` around `m` makes of the list `l ++ m :: r`. -/
def joinAt (l : List MemoryMapEntry) (m : MemoryMapEntry) (r : List MemoryMapEntry) :
    List MemoryMapEntry :=
  match l.getLast? with
  | none => joinNext m r
  | some p => if Joins p m then l.dropLast ++ joinNext (join p m) r else l ++ joinNext m r

@[simp] theorem joinAt_nil (m : MemoryMapEntry) (r : List MemoryMapEntry) :
    joinAt [] m r = joinNext m r := rfl

theorem joinAt_concat (l : List MemoryMapEntry) (p m : MemoryMapEntry)
    (r : List MemoryMapEntry) : joinAt (l ++ [p]) m r =
      if Joins p m then l ++ joinNext (join p m) r else l ++ p :: joinNext m r := by
  simp [joinAt]

section Joining

variable {a b m : MemoryMapEntry} {l r : List MemoryMapEntry}

theorem join_size (ha : Good a) (hb : Good b) (hj : Joins a b) :
    (join a b).size = a.size + b.size := by
  have hend : a.physicalStart + a.size = b.physicalStart := ha.physicalEnd ▸ hj.2
  have hfits := hb.fits
  exact Word.add_of_lt (by omega)

theorem good_join (ha : Good a) (hb : Good b) (hj : Joins a b) : Good (join a b) := by
  have hend : a.physicalStart + a.size = b.physicalStart := ha.physicalEnd ▸ hj.2
  have hsize := join_size ha hb hj
  refine ⟨ha.startAligned, ?_, ?_, ?_⟩
  · have h₁ := ha.sizeAligned
    have h₂ := hb.sizeAligned
    omega
  · have := ha.nonempty
    omega
  · have := hb.fits
    change a.physicalStart + _ < _
    omega

theorem tidy_join (h : Tidy (l ++ a :: b :: r)) (hj : Joins a b) : Tidy (l ++ join a b :: r) := by
  simp only [tidy_append, tidy_cons, List.forall_mem_cons] at h ⊢
  obtain ⟨hl, ⟨ha, ⟨-, har⟩, hb, hbr, hr⟩, hla⟩ := h
  have hend : a.physicalStart + a.size = b.physicalStart := ha.physicalEnd ▸ hj.2
  refine ⟨hl, ⟨good_join ha hb hj, ?_, hr⟩, fun k hk => ⟨(hla k hk).1, (hla k hk).2.2⟩⟩
  intro k hk
  have := hbr k hk
  unfold Before at this ⊢
  rw [join_size ha hb hj]
  change a.physicalStart + _ ≤ _
  omega

theorem tidy_joinNext (h : Tidy (l ++ m :: r)) : Tidy (l ++ joinNext m r) := by
  cases r with
  | nil => exact h
  | cons n r =>
    rw [joinNext]
    split_ifs with hj
    · exact tidy_join h hj
    · exact h

theorem tidy_joinAt (h : Tidy (l ++ m :: r)) : Tidy (joinAt l m r) := by
  rcases List.eq_nil_or_concat l with rfl | ⟨l, p, rfl⟩
  · exact tidy_joinNext h
  · rw [List.concat_eq_append, List.append_assoc] at h
    rw [List.concat_eq_append, joinAt_concat]
    split_ifs with hj
    · exact tidy_joinNext (tidy_join h hj)
    · have := tidy_joinNext (l := l ++ [p]) (by simpa using h)
      simpa using this

/-- Joining makes no new start. -/
theorem mem_joinNext (h : a ∈ joinNext m r) : ∃ b ∈ m :: r, a.physicalStart = b.physicalStart := by
  cases r with
  | nil => exact ⟨a, h, rfl⟩
  | cons n r =>
    rw [joinNext] at h
    split_ifs at h
    · rcases List.mem_cons.mp h with rfl | h
      · exact ⟨m, List.mem_cons_self, rfl⟩
      · exact ⟨a, by simp [h], rfl⟩
    · exact ⟨a, h, rfl⟩

theorem mem_joinAt (h : a ∈ joinAt l m r) : ∃ b ∈ l ++ m :: r, a.physicalStart = b.physicalStart := by
  rcases List.eq_nil_or_concat l with rfl | ⟨l, p, rfl⟩
  · exact mem_joinNext h
  · rw [List.concat_eq_append, joinAt_concat] at h
    rw [List.concat_eq_append]
    split_ifs at h
    · rcases List.mem_append.mp h with h | h
      · exact ⟨a, by simp [h], rfl⟩
      · obtain ⟨b, hb, hab⟩ := mem_joinNext h
        rcases List.mem_cons.mp hb with rfl | hb
        · exact ⟨p, by simp, hab⟩
        · exact ⟨b, by simp [hb], hab⟩
    · rcases List.mem_append.mp h with h | h
      · exact ⟨a, by simp [h], rfl⟩
      · rcases List.mem_cons.mp h with rfl | h
        · exact ⟨a, by simp, rfl⟩
        · obtain ⟨b, hb, hab⟩ := mem_joinNext h
          exact ⟨b, List.mem_append_right _ hb, hab⟩

end Joining

section Merging

variable {T : Target} {s : State} {free pre q r : List Ptr} {kept gone : Ptr}

theorem absorb_eq (ho : Owned T s [] free) (ht : s.tree = q ++ kept :: gone :: r) :
    absorb s kept gone = (mmapFreeEntry
      { s.setEntry kept (grown s kept gone) with tree := q ++ kept :: r } gone).bumpKey := by
  have ht' : (s.setEntry kept (grown s kept gone)).tree = (q ++ [kept]) ++ gone :: r := by
    simpa [State.setEntry] using ht
  have hr := rbRemove_linked (ho.setEntry kept (grown s kept gone)) ht'
  simp only [absorb, hr, List.append_assoc, List.singleton_append]

/-- What the nodes around the two hold afterwards. -/
theorem absorb_map (ho : Owned T s [] free) (ht : s.tree = pre ++ (q ++ kept :: gone :: r)) :
    (q ++ kept :: r).map (absorb s kept gone).entry =
      q.map s.entry ++ grown s kept gone :: r.map s.entry := by
  have ht' : s.tree = (pre ++ q) ++ kept :: gone :: r := by simpa using ht
  obtain ⟨h₁, h₂⟩ := ho.not_mem ht'
  simp only [List.mem_append, List.mem_cons, not_or] at h₁ h₂
  have hentry : (absorb s kept gone).entry = Function.update s.entry kept (grown s kept gone) := by
    rw [absorb_eq ho ht']
    rfl
  rw [hentry, List.map_append, List.map_cons, Function.update_self, map_update h₁.2,
    map_update h₂.2]

theorem absorb_leaves (ho : Owned T s [] free) (ht : s.tree = pre ++ (q ++ kept :: gone :: r))
    (h : Tidy ((q ++ kept :: gone :: r).map s.entry)) (hm : Mergeable s kept gone) :
    Leaves T s (absorb s kept gone) pre ((q ++ kept :: gone :: r).map s.entry) (q ++ kept :: r) ∧
    ∀ m, ((absorb s kept gone).entry m).physicalStart = (s.entry m).physicalStart := by
  have ht' : s.tree = (pre ++ q) ++ kept :: gone :: r := by simpa using ht
  have ht'' : s.tree = (pre ++ q ++ [kept]) ++ gone :: r := by simpa using ht
  obtain ⟨hk₁, hk₂⟩ := ho.not_mem ht'
  simp only [List.mem_append, List.mem_cons, not_or] at hk₁ hk₂
  have hentry : (absorb s kept gone).entry = Function.update s.entry kept (grown s kept gone) := by
    rw [absorb_eq ho ht']
    rfl
  have hgk : Good (s.entry kept) := h.good _ (List.mem_map_of_mem (by simp))
  have hgg : Good (s.entry gone) := h.good _ (List.mem_map_of_mem (by simp))
  have hend : (s.entry kept).physicalStart + (s.entry kept).size =
      (s.entry gone).physicalStart := hgk.physicalEnd ▸ hm.2
  have hsize : (grown s kept gone).size = (s.entry kept).size + (s.entry gone).size :=
    join_size hgk hgg hm
  have hl' := absorb_map ho ht
  refine ⟨⟨⟨?_, ?_, ?_⟩, ?_, ?_, ?_, ?_, ?_⟩, ?_⟩
  · rw [absorb_eq ho ht']; rfl
  · rw [absorb_eq ho ht']; rfl
  · rw [absorb_eq ho ht']; rfl
  · rw [absorb_eq ho ht']
    simp [mmapFreeEntry, State.bumpKey]
  · have hown := ((ho.setEntry kept (grown s kept gone)).unlink ht'').freed.bumpKey
    rw [absorb_eq ho ht']
    simp only [List.append_assoc, List.singleton_append] at hown ⊢
    exact ⟨_, hown⟩
  · intro m hmem
    rw [hentry]
    exact update_of_mem hk₁.1 hmem
  · rw [hl']
    exact tidy_join (by simpa using h) hm
  · intro x
    have hrank : rank s.overlapPrecedence (s.entry gone).type =
        rank s.overlapPrecedence (s.entry kept).type := by rw [hm.1]
    rw [hl']
    have hr' := (view s.overlapPrecedence).bestAt_le_top (r.map s.entry) x
    change _ ≤ s.overlapPrecedence.length at hr'
    simp only [List.map_append, List.map_cons, Cover.View.bestAt_append, Cover.View.bestAt_cons,
      valueAt_view, hsize, hrank]
    change min _ (min (if (s.entry kept).physicalStart ≤ x ∧
      x < (s.entry kept).physicalStart + _ then rank _ (s.entry kept).type else _) _) = _
    split_ifs <;> omega
  · intro m
    rw [hentry]
    by_cases hmk : m = kept
    · subst hmk
      rw [Function.update_self]
      rfl
    · rw [Function.update_of_ne hmk]

/-- What merging keeps of the nodes `l` behind `pre`. -/
structure Merged (T : Target) (s s' : State) (pre l l' : List Ptr) : Prop
    extends Leaves T s s' pre (l.map s.entry) l' where
  sub : ∀ m ∈ l', m ∈ l
  start : ∀ m, (s'.entry m).physicalStart = (s.entry m).physicalStart

theorem Merged.refl (ho : Owned T s [] free) (ht : s.tree = pre ++ q)
    (h : Tidy (q.map s.entry)) : Merged T s s pre q q where
  toLeaves := .rfl' ho ht h
  sub _ hm := hm
  start _ := rfl

theorem Merged.trans {t u : State} {l l' l'' : List Ptr} (h : Merged T s t pre l l')
    (h' : Merged T t u pre l' l'') : Merged T s u pre l l'' where
  toLeaves := h.toLeaves.trans h'.toLeaves
  sub m hm := h.sub m (h'.sub m hm)
  start m := (h'.start m).trans (h.start m)

theorem absorb_merged (ho : Owned T s [] free) (ht : s.tree = pre ++ (q ++ kept :: gone :: r))
    (h : Tidy ((q ++ kept :: gone :: r).map s.entry)) (hm : Mergeable s kept gone) :
    Merged T s (absorb s kept gone) pre (q ++ kept :: gone :: r) (q ++ kept :: r) := by
  obtain ⟨hl, hs⟩ := absorb_leaves ho ht h hm
  refine ⟨hl, ?_, hs⟩
  intro m hm
  simp only [List.mem_append, List.mem_cons] at hm ⊢
  tauto

/-- The second half of `merge_adjacent`. -/
def mergeNext (s : State) (mid next : Ptr) : State :=
  if next ≠ 0 ∧ Mergeable s mid next then absorb s mid next else s

theorem mergeNext_merged {mid : Ptr} (ho : Owned T s [] free)
    (ht : s.tree = pre ++ (q ++ mid :: r)) (h : Tidy ((q ++ mid :: r).map s.entry)) :
    ∃ r', Merged T s (mergeNext s mid (r.headD 0)) pre (q ++ mid :: r) (q ++ mid :: r') := by
  unfold mergeNext
  split_ifs with hm
  · cases r with
    | nil => simp at hm
    | cons next r => exact ⟨r, absorb_merged ho ht h hm.2⟩
  · exact ⟨r, .refl ho ht h⟩

/-- `merge_adjacent` on a linked node: with the entry in front, or not. -/
theorem mergeAdjacent_cases {mid : Ptr} (ho : Owned T s [] free) (ht : s.tree = q ++ mid :: r) :
    (∃ q' p, q = q' ++ [p] ∧ Mergeable s p mid ∧
      mergeAdjacent s mid = mergeNext (absorb s p mid) p (r.headD 0)) ∨
    ((∀ q' p, q = q' ++ [p] → ¬ Mergeable s p mid) ∧
      mergeAdjacent s mid = mergeNext s mid (r.headD 0)) := by
  have hmid : mid ∈ s.tree := by simp [ht]
  have hnext : rbNext s mid = r.headD 0 := by
    rw [rbNext, ht]
    exact Links.after_append (ho.not_mem ht).1
  rcases List.eq_nil_or_concat q with rfl | ⟨q', p, rfl⟩
  · refine .inr ⟨by simp, ?_⟩
    simp [mergeAdjacent, use_of_mem hmid, rbPrev_head ho ht, hnext, mergeNext]
  · rw [List.concat_eq_append] at ht ⊢
    have hprev : rbPrev s mid = p :=
      rbPrev_append ho (by simpa using ht : s.tree = q' ++ p :: mid :: r)
    have hp0 : p ≠ 0 := ho.ne_null (by simp [ht])
    by_cases hm : Mergeable s p mid
    · refine .inl ⟨q', p, rfl, hm, ?_⟩
      simp [mergeAdjacent, use_of_mem hmid, hprev, hnext, mergeNext, hm, hp0]
    · refine .inr ⟨?_, ?_⟩
      · intro q'' p' hq
        obtain ⟨-, hp⟩ := List.append_inj' hq rfl
        rwa [← List.singleton_inj.mp hp]
      · simp [mergeAdjacent, use_of_mem hmid, hprev, hnext, mergeNext, hm]

theorem mergeNext_map {mid : Ptr} (ho : Owned T s [] free) (ht : s.tree = q ++ mid :: r) :
    (mergeNext s mid (r.headD 0)).entries =
      q.map s.entry ++ joinNext (s.entry mid) (r.map s.entry) := by
  unfold mergeNext
  cases r with
  | nil => simp [State.entries, ht, joinNext]
  | cons next r =>
    have hn : next ≠ 0 := ho.ne_null (by simp [ht])
    simp only [List.headD_cons, List.map_cons, joinNext, ne_eq, hn, not_false_eq_true, true_and]
    by_cases hm : Mergeable s mid next
    · have hj : Joins (s.entry mid) (s.entry next) := hm
      have htree : (absorb s mid next).tree = q ++ mid :: r := by rw [absorb_eq ho ht]; rfl
      rw [if_pos hm, if_pos hj, State.entries, htree]
      exact absorb_map ho (by simpa using ht : s.tree = [] ++ (q ++ mid :: next :: r))
    · have hj : ¬ Joins (s.entry mid) (s.entry next) := hm
      rw [if_neg hm, if_neg hj, State.entries, ht, List.map_append, List.map_cons, List.map_cons]

/-- `merge_adjacent` on the list of entries. -/
theorem mergeAdjacent_entries {mid : Ptr} (ho : Owned T s [] free)
    (ht : s.tree = q ++ mid :: r) :
    (mergeAdjacent s mid).entries = joinAt (q.map s.entry) (s.entry mid) (r.map s.entry) := by
  rcases mergeAdjacent_cases ho ht with ⟨q', p, rfl, hm, heq⟩ | ⟨hm, heq⟩
  · have ht' : s.tree = q' ++ p :: mid :: r := by simpa using ht
    have hj : Joins (s.entry p) (s.entry mid) := hm
    have htree : (absorb s p mid).tree = q' ++ p :: r := by rw [absorb_eq ho ht']; rfl
    have hown : ∃ free', Owned T (absorb s p mid) [] free' := by
      have := ((ho.setEntry p (grown s p mid)).unlink
        (by simpa using ht' : s.tree = (q' ++ [p]) ++ mid :: r)).freed.bumpKey
      rw [absorb_eq ho ht']
      exact ⟨_, by simpa using this⟩
    obtain ⟨free', ho'⟩ := hown
    have hmap := absorb_map ho (by simpa using ht' : s.tree = [] ++ (q' ++ p :: mid :: r))
    rw [List.map_append, List.map_cons] at hmap
    obtain ⟨h₁, h₂⟩ := List.append_inj hmap (by simp)
    obtain ⟨h₂, h₃⟩ := List.cons.inj h₂
    rw [heq, mergeNext_map ho' htree, h₁, h₂, h₃, List.map_append, List.map_cons, List.map_nil,
      joinAt_concat, if_pos hj]
    rfl
  · rw [heq, mergeNext_map ho ht]
    rcases List.eq_nil_or_concat q with rfl | ⟨q', p, rfl⟩
    · rfl
    · rw [List.concat_eq_append] at hm ⊢
      have hj : ¬ Joins (s.entry p) (s.entry mid) := hm q' p rfl
      rw [List.map_append, List.map_cons, List.map_nil, joinAt_concat, if_neg hj]
      simp

/-- `merge_adjacent` on a linked node. The first node behind `pre` stays unless
it is the one merged, and nothing in `pre` is reached. -/
theorem mergeAdjacent_merged {mid : Ptr} (ho : Owned T s [] free)
    (ht : s.tree = pre ++ (q ++ mid :: r)) (hpre : pre = [] ∨ q ≠ [])
    (h : Tidy ((q ++ mid :: r).map s.entry)) :
    ∃ l', Merged T s (mergeAdjacent s mid) pre (q ++ mid :: r) l' ∧
      ∀ a t, q = a :: t → ∃ t', l' = a :: t' := by
  have ht' : s.tree = (pre ++ q) ++ mid :: r := by simpa using ht
  rcases mergeAdjacent_cases ho ht' with ⟨q'', p, hq, hm, heq⟩ | ⟨-, heq⟩
  · rcases List.eq_nil_or_concat q with rfl | ⟨q', p', rfl⟩
    · -- no entry in front: `pre` is empty as well
      obtain rfl : pre = [] := by simpa using hpre
      simp at hq
    · rw [List.concat_eq_append] at *
      obtain rfl : p' = p := by
        rw [← List.append_assoc] at hq
        exact List.singleton_inj.mp (List.append_inj' hq rfl).2
      have hpm : s.tree = pre ++ (q' ++ p' :: mid :: r) := by simpa using ht
      have hpt : Tidy ((q' ++ p' :: mid :: r).map s.entry) := by simpa using h
      have ha := absorb_merged ho hpm hpt hm
      obtain ⟨free', ho'⟩ := ha.owned
      obtain ⟨r', hr'⟩ := mergeNext_merged ho' ha.tree ha.tidy
      refine ⟨q' ++ p' :: r', ?_, ?_⟩
      · rw [heq]
        simpa using ha.trans hr'
      · intro a t hat
        cases q' with
        | nil =>
          simp only [List.nil_append, List.cons.injEq] at hat
          exact ⟨r', by simp [hat.1]⟩
        | cons b q' =>
          simp only [List.cons_append, List.cons.injEq] at hat
          exact ⟨q' ++ p' :: r', by simp [hat.1]⟩
  · obtain ⟨r', hr'⟩ := mergeNext_merged ho ht h
    refine ⟨_, heq ▸ hr', ?_⟩
    intro a t hat
    exact ⟨t ++ mid :: r', by rw [hat, List.cons_append]⟩

/-- The entries behind `pre` after `merge_adjacent`. -/
theorem Merged.map {mid : Ptr} {l' : List Ptr}
    (hm : Merged T s (mergeAdjacent s mid) pre (q ++ mid :: r) l') (ho : Owned T s [] free)
    (ht : s.tree = pre ++ (q ++ mid :: r)) (hpre : pre = [] ∨ q ≠ []) :
    l'.map (mergeAdjacent s mid).entry =
      joinAt (q.map s.entry) (s.entry mid) (r.map s.entry) := by
  have hall := mergeAdjacent_entries ho (by simpa using ht : s.tree = (pre ++ q) ++ mid :: r)
  rw [State.entries, hm.tree, List.map_append, List.map_append,
    List.map_congr_left hm.frame] at hall
  rcases List.eq_nil_or_concat q with rfl | ⟨q', p, rfl⟩
  · obtain rfl : pre = [] := by simpa using hpre
    simpa using hall
  · rw [List.concat_eq_append, List.map_append, List.map_cons, List.map_nil] at hall ⊢
    rw [← List.append_assoc, joinAt_concat] at hall
    rw [joinAt_concat]
    split_ifs at hall ⊢
    · rw [List.append_assoc] at hall
      exact List.append_cancel_left hall
    · rw [List.append_assoc] at hall
      exact List.append_cancel_left hall

end Merging

end Gandr.Mmap

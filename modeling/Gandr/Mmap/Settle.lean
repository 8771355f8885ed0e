import Gandr.Mmap.Tidy

/-! `fix_overlap` and `mmap_add_entry` as functions on the list of entries, and
what their steps keep of it. A list is given back unless the second insertion
of `mmap_add_entry` meets an entry of equal start, where the code panics. -/

namespace Gandr.Mmap

section Entries

variable {table : List MemoryType} {f n o : MemoryMapEntry} {r : List MemoryMapEntry}
  {t : MemoryType}

/-- `first` ends inside `second` and wins: `second` starts where `first` ends. -/
def cutSecond (f n : MemoryMapEntry) : MemoryMapEntry :=
  { n with
    size := n.physicalStart + n.size - (f.physicalStart + f.size)
    physicalStart := f.physicalStart + f.size }

/-- `first` ends where `second` starts. -/
def cutFirst (f n : MemoryMapEntry) : MemoryMapEntry :=
  { f with size := n.physicalStart - f.physicalStart }

/-- What `first` covers after the end of `second`. -/
def tailEntry (f n : MemoryMapEntry) : MemoryMapEntry :=
  { type := f.type
    physicalStart := n.physicalStart + n.size
    size := f.physicalStart + f.size - (n.physicalStart + n.size)
    attributes := f.attributes }

theorem good_cutSecond (hf : Good f) (hn : Good n)
    (hlt : f.physicalStart + f.size < n.physicalStart + n.size) : Good (cutSecond f n) := by
  obtain ⟨h₁, h₂, h₃, h₄⟩ := hf
  obtain ⟨k₁, k₂, k₃, k₄⟩ := hn
  constructor <;> simp only [cutSecond] <;> omega

theorem good_cutFirst (hf : Good f) (hn : Good n) (hs : f.physicalStart < n.physicalStart) :
    Good (cutFirst f n) := by
  obtain ⟨h₁, h₂, h₃, h₄⟩ := hf
  obtain ⟨k₁, k₂, k₃, k₄⟩ := hn
  constructor <;> simp only [cutFirst] <;> omega

theorem good_tailEntry (hf : Good f) (hn : Good n)
    (hlt : n.physicalStart + n.size < f.physicalStart + f.size) : Good (tailEntry f n) := by
  obtain ⟨h₁, h₂, h₃, h₄⟩ := hf
  obtain ⟨k₁, k₂, k₃, k₄⟩ := hn
  constructor <;> simp only [tailEntry] <;> omega

theorem dropFront_eq {k : ℕ} (h : Good o) (hk : k < o.size) :
    (dropFront o k).physicalStart = o.physicalStart + k ∧ (dropFront o k).size = o.size - k := by
  have := h.fits
  exact ⟨Word.add_of_lt (by omega), Word.sub_of_le (by omega) hk.le⟩

theorem good_dropFront {k : ℕ} (h : Good o) (hk : k < o.size) (ha : k % 4096 = 0) :
    Good (dropFront o k) := by
  obtain ⟨h₁, h₂⟩ := dropFront_eq h hk
  obtain ⟨g₁, g₂, g₃, g₄⟩ := h
  constructor <;> omega

theorem good_retype (h : Good o) : Good { o with type := t } :=
  ⟨h.startAligned, h.sizeAligned, h.nonempty, h.fits⟩

theorem tidy_cutSecond (hf : Good f) (ht : Tidy (n :: r))
    (hlt : f.physicalStart + f.size < n.physicalStart + n.size) :
    Tidy (f :: cutSecond f n :: r) := by
  obtain ⟨hn, hb, hr⟩ := tidy_cons.mp ht
  refine tidy_cons.mpr ⟨hf, ?_, tidy_cons.mpr ⟨good_cutSecond hf hn hlt, ?_, hr⟩⟩
  · refine List.forall_mem_cons.mpr ⟨le_rfl, fun b hm => ?_⟩
    have := hb b hm
    unfold Before at *
    omega
  · intro b hm
    have := hb b hm
    simp only [Before, cutSecond] at *
    omega

theorem tidy_cutFirst (hf : Good f) (ht : Tidy (n :: r)) (hs : f.physicalStart < n.physicalStart) :
    Tidy (cutFirst f n :: n :: r) := by
  obtain ⟨hn, hb, hr⟩ := tidy_cons.mp ht
  refine tidy_cons.mpr ⟨good_cutFirst hf hn hs, ?_, ht⟩
  refine List.forall_mem_cons.mpr ⟨?_, fun b hm => ?_⟩
  · simp only [Before, cutFirst]
    omega
  · have := hb b hm
    simp only [Before, cutFirst] at *
    omega

theorem best_cutSecond (hs : f.physicalStart < n.physicalStart)
    (hlt : f.physicalStart + f.size < n.physicalStart + n.size)
    (ho : n.physicalStart < f.physicalStart + f.size)
    (hrank : rank table f.type ≤ rank table n.type) (x : ℕ) :
    (view table).bestAt (f :: cutSecond f n :: r) x = (view table).bestAt (f :: n :: r) x := by
  have hr := (view table).bestAt_le_top r x
  change _ ≤ table.length at hr
  simp only [Cover.View.bestAt_cons, valueAt_view, cutSecond]
  split_ifs <;> omega

theorem best_cutFirst (hs : f.physicalStart < n.physicalStart)
    (ho : n.physicalStart ≤ f.physicalStart + f.size)
    (hle : f.physicalStart + f.size ≤ n.physicalStart + n.size)
    (hrank : rank table n.type ≤ rank table f.type) (x : ℕ) :
    (view table).bestAt (cutFirst f n :: n :: r) x = (view table).bestAt (f :: n :: r) x := by
  have hr := (view table).bestAt_le_top r x
  change _ ≤ table.length at hr
  simp only [Cover.View.bestAt_cons, valueAt_view, cutFirst]
  split_ifs <;> omega

theorem best_drop (hs : f.physicalStart < n.physicalStart)
    (hlt : n.physicalStart + n.size < f.physicalStart + f.size)
    (hrank : rank table f.type ≤ rank table n.type) (x : ℕ) :
    (view table).bestAt (f :: r) x = (view table).bestAt (f :: n :: r) x := by
  have hr := (view table).bestAt_le_top r x
  change _ ≤ table.length at hr
  simp only [Cover.View.bestAt_cons, valueAt_view]
  split_ifs <;> omega

theorem best_split (hs : f.physicalStart < n.physicalStart)
    (hlt : n.physicalStart + n.size < f.physicalStart + f.size)
    (hrank : rank table n.type ≤ rank table f.type) (x : ℕ) :
    min ((view table).valueAt (cutFirst f n) x)
      ((view table).bestAt (tailEntry f n :: n :: r) x) =
      (view table).bestAt (f :: n :: r) x := by
  have hr := (view table).bestAt_le_top r x
  change _ ≤ table.length at hr
  simp only [Cover.View.bestAt_cons, valueAt_view, cutFirst, tailEntry]
  split_ifs <;> omega

/-- Both end together: the overlap gets the stronger type. -/
theorem best_sameEnd (hs : f.physicalStart < n.physicalStart)
    (heq : f.physicalStart + f.size = n.physicalStart + n.size)
    (ht : rank table t = min (rank table f.type) (rank table n.type)) (x : ℕ) :
    (view table).bestAt (cutFirst f n :: { n with type := t } :: r) x =
      (view table).bestAt (f :: n :: r) x := by
  have hr := (view table).bestAt_le_top r x
  change _ ≤ table.length at hr
  simp only [Cover.View.bestAt_cons, valueAt_view, cutFirst]
  split_ifs <;> omega

theorem tidy_sameEnd (hf : Good f) (ht : Tidy (n :: r))
    (hs : f.physicalStart < n.physicalStart) :
    Tidy (cutFirst f n :: { n with type := t } :: r) := by
  obtain ⟨hn, hb, hr⟩ := tidy_cons.mp ht
  have ht' : Tidy ({ n with type := t } :: r) :=
    tidy_cons.mpr ⟨⟨hn.startAligned, hn.sizeAligned, hn.nonempty, hn.fits⟩, hb, hr⟩
  exact tidy_cutFirst (n := { n with type := t }) hf ht' hs

end Entries

/-- No other entry than the first can start where all may start. -/
theorem Tidy.mem_head {r : List MemoryMapEntry} {k : MemoryMapEntry} (h : Tidy r) (hk : k ∈ r)
    (hr : ∀ m ∈ r, k.physicalStart ≤ m.physicalStart) : k ∈ r.head? := by
  cases r with
  | nil => simp at hk
  | cons o r =>
    obtain ⟨ho, hb, -⟩ := tidy_cons.mp h
    rcases List.mem_cons.mp hk with rfl | hk
    · rfl
    · have h₁ := hb k hk
      have h₂ := hr o List.mem_cons_self
      have h₃ := ho.nonempty
      unfold Before at h₁
      omega

/-- `e` lies strictly inside `m`, which is at least as strong. -/
def Redundant (table : List MemoryType) (e m : MemoryMapEntry) : Prop :=
  m.physicalStart < e.physicalStart ∧
    e.physicalStart + e.size < m.physicalStart + m.size ∧
    rank table m.type ≤ rank table e.type

instance (table : List MemoryType) (e m : MemoryMapEntry) : Decidable (Redundant table e m) :=
  inferInstanceAs (Decidable (_ ∧ _ ∧ _))

/-- What `mmap_add_entry` makes of the entries `l ++ o :: r` where `o` starts
where `e` does: `x` is what becomes of the rest of `e` and the entries `r`. There
is no result where the second insertion panics. -/
def besideOld (table : List MemoryType) (l : List MemoryMapEntry) (e o : MemoryMapEntry)
    (r : List MemoryMapEntry) (x : Option (MemoryMapEntry × List MemoryMapEntry)) :
    Option (List MemoryMapEntry) :=
  let type := higherPrecedence table o.type e.type
  if o.size = e.size then some (joinAt l { o with type := type } r)
  else if e.size < o.size then
    some (joinAt l { e with type := type } (dropFront o e.size :: r))
  else if ∃ k ∈ r.head?, k.physicalStart = (dropFront e o.size).physicalStart then none
  else x.map fun x => joinAt (l ++ [{ o with type := type }]) x.1 x.2

/-- What `fix_overlap` makes of `f` and the entries behind it. -/
def settle (table : List MemoryType) :
    MemoryMapEntry → List MemoryMapEntry → Option (MemoryMapEntry × List MemoryMapEntry)
  | f, [] => some (f, [])
  | f, n :: r =>
    let wins := rank table f.type ≤ rank table n.type
    if f.physicalStart + f.size ≤ n.physicalStart then some (f, n :: r)
    else if f.physicalStart + f.size < n.physicalStart + n.size then
      if wins then some (f, cutSecond f n :: r) else some (cutFirst f n, n :: r)
    else if n.physicalStart + n.size < f.physicalStart + f.size then
      if wins then settle table f r
      else
        -- `n` stays and the rest of `f` is added behind it
        let n' := { n with attributes := f.attributes ||| n.attributes }
        let t := tailEntry f n
        let l := match r with
          | [] => some (joinAt [n'] t [])
          | o :: r =>
            if o.physicalStart = t.physicalStart then
              besideOld table [n'] t o r (settle table (dropFront t o.size) r)
            else (settle table t (o :: r)).map fun x : _ × _ => joinAt [n'] x.1 x.2
        l.map fun l => (cutFirst f n, l)
    else some (cutFirst f n, { n with type := higherPrecedence table f.type n.type } :: r)

/-- What `mmap_add_entry` makes of an entry that starts where `p` ends. -/
def readd (table : List MemoryType) (p e : MemoryMapEntry) :
    List MemoryMapEntry → Option (List MemoryMapEntry)
  | [] => some (joinAt [p] e [])
  | o :: r =>
    if o.physicalStart = e.physicalStart then
      besideOld table [p] e o r (settle table (dropFront e o.size) r)
    else (settle table e (o :: r)).map fun x => joinAt [p] x.1 x.2

/-- What `mmap_add_entry` makes of the entries `l ++ r` where `e` starts between
them: the entry in front of it is fixed up last. -/
def between (table : List MemoryType) (l : List MemoryMapEntry) (e : MemoryMapEntry)
    (r : List MemoryMapEntry) : Option (List MemoryMapEntry) :=
  (settle table e r).bind fun x =>
    match l.getLast? with
    | none => some (joinNext x.1 x.2)
    | some p => (settle table p (x.1 :: x.2)).bind fun y =>
      match y.2 with
      | [] => none
      | m :: r => some (joinAt (l.dropLast ++ [y.1]) m r)

section Settle

variable {table : List MemoryType} {f n : MemoryMapEntry} {r : List MemoryMapEntry}

theorem settle_apart (h : Before f n) : settle table f (n :: r) = some (f, n :: r) := by
  unfold Before at h
  rw [settle, if_pos h]

/-- Nothing overlaps. -/
theorem settle_before (h : ∀ m ∈ r, Before f m) : settle table f r = some (f, r) := by
  cases r with
  | nil => rfl
  | cons n r => exact settle_apart (h n List.mem_cons_self)

theorem settle_overlap (h : ¬ f.physicalStart + f.size ≤ n.physicalStart) :
    settle table f (n :: r) =
      if f.physicalStart + f.size < n.physicalStart + n.size then
        if rank table f.type ≤ rank table n.type then some (f, cutSecond f n :: r)
        else some (cutFirst f n, n :: r)
      else if n.physicalStart + n.size < f.physicalStart + f.size then
        if rank table f.type ≤ rank table n.type then settle table f r
        else (readd table { n with attributes := f.attributes ||| n.attributes } (tailEntry f n)
          r).map fun l => (cutFirst f n, l)
      else some (cutFirst f n, { n with type := higherPrecedence table f.type n.type } :: r) := by
  rw [settle, if_neg h]
  cases r <;> rfl

end Settle

/-- What `mmap_add_entry` makes of the entries `es`, unless it panics. -/
def addTo (table : List MemoryType) (e : MemoryMapEntry) (es : List MemoryMapEntry) :
    Option (List MemoryMapEntry) :=
  let l := es.takeWhile fun m => m.physicalStart < e.physicalStart
  if ∃ m ∈ es, Redundant table e m then some es
  else
    match es.dropWhile fun m => m.physicalStart < e.physicalStart with
    | [] => between table l e []
    | o :: r =>
      if o.physicalStart = e.physicalStart then
        besideOld table l e o r (settle table (dropFront e o.size) r)
      else between table l e (o :: r)

section AddTo

variable {table : List MemoryType} {e f o p m : MemoryMapEntry} {l r : List MemoryMapEntry}
  {x : MemoryMapEntry × List MemoryMapEntry}

theorem settle_start (h : settle table f r = some x) :
    x.1.physicalStart = f.physicalStart ∧ x.1.type = f.type := by
  induction r with
  | nil =>
    cases h
    exact ⟨rfl, rfl⟩
  | cons n r ih =>
    by_cases hb : f.physicalStart + f.size ≤ n.physicalStart
    · rw [settle_apart hb] at h
      cases h
      exact ⟨rfl, rfl⟩
    · rw [settle_overlap hb] at h
      split_ifs at h
      · cases h
        exact ⟨rfl, rfl⟩
      · cases h
        exact ⟨rfl, rfl⟩
      · exact ih h
      · obtain ⟨k, -, rfl⟩ := Option.map_eq_some_iff.mp h
        exact ⟨rfl, rfl⟩
      · cases h
        exact ⟨rfl, rfl⟩

theorem addTo_old (hred : ∀ k ∈ l ++ o :: r, ¬ Redundant table e k)
    (hl : ∀ k ∈ l, k.physicalStart < e.physicalStart) (ho : o.physicalStart = e.physicalStart) :
    addTo table e (l ++ o :: r) =
      besideOld table l e o r (settle table (dropFront e o.size) r) := by
  have hnone : ¬ ∃ k ∈ l ++ o :: r, Redundant table e k := by
    rintro ⟨k, hk, hr⟩
    exact hred k hk hr
  obtain ⟨htake, hdrop⟩ := Links.while_split (r := o :: r)
    (f := fun m : MemoryMapEntry => decide (m.physicalStart < e.physicalStart))
    (by simpa using hl) (by simp [ho])
  simp only [addTo, htake, hdrop, ho, if_neg hnone, if_true]

theorem addTo_between (hred : ∀ k ∈ l ++ r, ¬ Redundant table e k)
    (hl : ∀ k ∈ l, k.physicalStart < e.physicalStart)
    (hr : ∀ k ∈ r, e.physicalStart < k.physicalStart) :
    addTo table e (l ++ r) = between table l e r := by
  have hnone : ¬ ∃ k ∈ l ++ r, Redundant table e k := by
    rintro ⟨k, hk, hr⟩
    exact hred k hk hr
  obtain ⟨htake, hdrop⟩ := Links.while_split (r := r)
    (f := fun m : MemoryMapEntry => decide (m.physicalStart < e.physicalStart))
    (by simpa using hl)
    (fun k hk => by simpa using (hr k (List.mem_of_mem_head? hk)).le)
  cases r with
  | nil => simp only [addTo, htake, hdrop, if_neg hnone]
  | cons o r =>
    have ho := hr o List.mem_cons_self
    simp only [addTo, htake, hdrop, if_neg hnone, if_neg ho.ne']

theorem between_nil (table : List MemoryType) (e : MemoryMapEntry) (r : List MemoryMapEntry) :
    between table [] e r = (settle table e r).map fun x => joinNext x.1 x.2 := by
  unfold between
  cases settle table e r <;> rfl

theorem between_concat (h : settle table e r = some x) :
    between table (l ++ [p]) e r = (settle table p (x.1 :: x.2)).bind fun y =>
      match y.2 with
      | [] => none
      | m :: r => some (joinAt (l ++ [y.1]) m r) := by
  simp [between, h]

/-- Adding behind an entry that ends where `e` starts does not change it. -/
theorem readd_eq (hp : p.physicalStart + p.size = e.physicalStart) (hne : 0 < p.size)
    (hr : ∀ k ∈ r, e.physicalStart ≤ k.physicalStart)
    (hr' : ∀ k ∈ r.tail, e.physicalStart < k.physicalStart) :
    readd table p e r = addTo table e (p :: r) := by
  have hred : ∀ k ∈ [p] ++ r, ¬ Redundant table e k := by
    rintro k hk ⟨h₁, h₂, -⟩
    rcases List.mem_cons.mp hk with rfl | hk
    · omega
    · have := hr k hk
      omega
  have hl : ∀ k ∈ [p], k.physicalStart < e.physicalStart := by
    intro k hk
    obtain rfl := List.mem_singleton.mp hk
    omega
  have hbetween : ∀ r, between table [p] e r =
      (settle table e r).map fun x => joinAt [p] x.1 x.2 := by
    intro r
    cases hs : settle table e r with
    | none => simp [between, hs]
    | some x =>
      have hb : Before p x.1 := by
        unfold Before
        rw [(settle_start hs).1]
        exact hp.le
      have := between_concat (l := []) (p := p) hs
      rw [settle_apart hb] at this
      exact this
  cases r with
  | nil =>
    rw [show p :: ([] : List MemoryMapEntry) = [p] ++ [] from rfl,
      addTo_between hred hl (by simp), hbetween]
    rfl
  | cons o r =>
    rw [readd]
    split_ifs with ho
    · exact (addTo_old hred hl ho).symm
    · rw [← hbetween]
      refine (addTo_between hred hl ?_).symm
      refine List.forall_mem_cons.mpr ⟨?_, hr'⟩
      have := hr o List.mem_cons_self
      omega

end AddTo

end Gandr.Mmap

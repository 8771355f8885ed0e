import Gandr.Mmap.Key

/-! The second insertion of `mmap_add_entry`. Where an entry of equal start is
shorter than the new one, the rest of the new one is inserted behind it, and an
entry that starts just there makes the call panic. -/

namespace Gandr.Mmap

/-- `a` ends where `b` starts. -/
def Meets (a b : MemoryMapEntry) : Prop := a.physicalStart + a.size = b.physicalStart

instance (a b : MemoryMapEntry) : Decidable (Meets a b) := inferInstanceAs (Decidable (_ = _))

/-- Three entries in a row before the end of `f`, the first of them stronger
than `f`. -/
def Jammed (table : List MemoryType) (f : MemoryMapEntry) (r : List MemoryMapEntry) : Prop :=
  ∃ k ∈ r, ∃ m ∈ r, ∃ n ∈ r, Meets k m ∧ Meets m n ∧
    n.physicalStart < f.physicalStart + f.size ∧ rank table k.type < rank table f.type

section Lists

variable {table : List MemoryType} {e f n o : MemoryMapEntry} {l r : List MemoryMapEntry}

/-- In a tidy list an entry starts after the first one or is it. -/
theorem Tidy.behind (h : Tidy (n :: r)) {k m : MemoryMapEntry} (hk : k ∈ n :: r)
    (hm : m ∈ n :: r) (hkm : Meets k m) : m ∈ r := by
  obtain ⟨hn, hb, hr⟩ := tidy_cons.mp h
  rcases List.mem_cons.mp hm with rfl | hm
  · unfold Meets at hkm
    have hne := hn.nonempty
    rcases List.mem_cons.mp hk with rfl | hk
    · omega
    · have := hb k hk
      unfold Before at this
      omega
  · exact hm

theorem jammed_cons (h : Tidy (n :: r)) : Jammed table f (n :: r) ↔
    (rank table n.type < rank table f.type ∧ ∃ m ∈ r, ∃ k ∈ r, Meets n m ∧ Meets m k ∧
      k.physicalStart < f.physicalStart + f.size) ∨ Jammed table f r := by
  constructor
  · rintro ⟨k, hk, m, hm, p, hp, hkm, hmp, hlt, hrank⟩
    have hm' := h.behind hk hm hkm
    have hp' := h.behind hm hp hmp
    rcases List.mem_cons.mp hk with rfl | hk
    · exact .inl ⟨hrank, m, hm', p, hp', hkm, hmp, hlt⟩
    · exact .inr ⟨k, hk, m, hm', p, hp', hkm, hmp, hlt, hrank⟩
  · rintro (⟨hrank, m, hm, k, hk, hnm, hmk, hlt⟩ | ⟨k, hk, m, hm, p, hp, hkm, hmp, hlt, hrank⟩)
    · exact ⟨n, List.mem_cons_self, m, List.mem_cons_of_mem _ hm, k, List.mem_cons_of_mem _ hk,
        hnm, hmk, hlt, hrank⟩
    · exact ⟨k, List.mem_cons_of_mem _ hk, m, List.mem_cons_of_mem _ hm, p,
        List.mem_cons_of_mem _ hp, hkm, hmp, hlt, hrank⟩

/-- Nothing behind the end of `f` counts. -/
theorem not_jammed (h : Tidy (n :: r))
    (hle : f.physicalStart + f.size ≤ n.physicalStart + n.size) : ¬ Jammed table f (n :: r) := by
  rintro ⟨k, hk, m, hm, p, hp, -, hmp, hlt, -⟩
  have := (tidy_cons.mp h).2.1 p (h.behind hm hp hmp)
  unfold Before at this
  omega

/-- The entry that `n` meets is the next one. -/
theorem Tidy.meets_head (h : Tidy (n :: r)) {m : MemoryMapEntry} (hm : m ∈ r) (hnm : Meets n m) :
    m ∈ r.head? := by
  obtain ⟨-, hb, hr⟩ := tidy_cons.mp h
  refine hr.mem_head hm ?_
  intro k hk
  have := hb k hk
  unfold Before at this
  unfold Meets at hnm
  omega

/-- Where the first insertion meets `o`, the second panics or goes on behind it. -/
theorem besideOld_eq_none {x : Option (MemoryMapEntry × List MemoryMapEntry)} (he : Good e)
    (h : Tidy (o :: r)) (ho : o.physicalStart = e.physicalStart) :
    besideOld table l e o r x = none ↔
      o.size < e.size ∧ ((∃ k ∈ r, Meets o k) ∨ x = none) := by
  unfold besideOld
  dsimp only
  split_ifs with h₁ h₂ h₃
  · simp [h₁]
  · simp [h₂.not_gt]
  · obtain ⟨k, hk, hks⟩ := h₃
    have hsize : o.size < e.size := by omega
    rw [(dropFront_eq he hsize).1] at hks
    refine iff_of_true rfl ⟨hsize, .inl ⟨k, List.mem_of_mem_head? hk, ?_⟩⟩
    unfold Meets
    omega
  · have hsize : o.size < e.size := by omega
    have hnone : ¬ ∃ k ∈ r, Meets o k := by
      rintro ⟨k, hk, hmeets⟩
      refine h₃ ⟨k, h.meets_head hk hmeets, ?_⟩
      rw [(dropFront_eq he hsize).1]
      unfold Meets at hmeets
      omega
    simp [hsize, hnone]

theorem jammed_congr (hend : e.physicalStart + e.size = f.physicalStart + f.size)
    (htype : e.type = f.type) : Jammed table e r ↔ Jammed table f r := by
  simp only [Jammed, hend, htype]

/-- Two entries in a row behind `n`, or three behind those. -/
theorem row_cons (h : Tidy (n :: o :: r)) (hno : Meets n o) :
    ((∃ m ∈ o :: r, ∃ k ∈ o :: r, Meets n m ∧ Meets m k ∧
        k.physicalStart < f.physicalStart + f.size) ∨ Jammed table f (o :: r)) ↔
      (∃ k ∈ r, Meets o k ∧ k.physicalStart < f.physicalStart + f.size) ∨ Jammed table f r := by
  have ht := (tidy_cons.mp h).2.2
  rw [jammed_cons ht]
  constructor
  · rintro (⟨m, hm, k, hk, hnm, hmk, hlt⟩ | ⟨-, m, hm, k, hk, hom, hmk, hlt⟩ | hjam)
    · obtain rfl : o = m := by simpa using h.meets_head hm hnm
      exact .inl ⟨k, ht.behind List.mem_cons_self hk hmk, hmk, hlt⟩
    · have := (ht.good m (List.mem_cons_of_mem _ hm)).nonempty
      unfold Meets at hmk
      exact .inl ⟨m, hm, hom, by omega⟩
    · exact .inr hjam
  · rintro (⟨k, hk, hok, hlt⟩ | hjam)
    · exact .inl ⟨o, List.mem_cons_self, k, List.mem_cons_of_mem _ hk, hno, hok, hlt⟩
    · exact .inr (.inr hjam)

/-- The rest of an entry is added behind `n`; `ih` is about shorter lists. -/
theorem readd_eq_none {p : MemoryMapEntry} (h : Tidy (n :: r)) (he : Good e) (hne : Meets n e)
    (ih : ∀ f r', r'.length ≤ r.length → Tidy r' → Good f →
      (∀ k ∈ r', f.physicalStart < k.physicalStart) →
      (settle table f r' = none ↔ Jammed table f r')) :
    readd table p e r = none ↔ (∃ m ∈ r, ∃ k ∈ r, Meets n m ∧ Meets m k ∧
      k.physicalStart < e.physicalStart + e.size) ∨ Jammed table e r := by
  obtain ⟨-, hb, ht⟩ := tidy_cons.mp h
  unfold Meets at hne
  cases r with
  | nil => simp [readd, Jammed]
  | cons o r =>
    obtain ⟨ho, hob, hr⟩ := tidy_cons.mp ht
    have hno := hb o List.mem_cons_self
    have hpos := ho.nonempty
    unfold Before at hno
    rw [readd]
    split_ifs with hos
    · rw [besideOld_eq_none he ht hos, row_cons h (hne.trans hos.symm)]
      by_cases hsize : o.size < e.size
      · have hdrop := dropFront_eq he hsize
        have hgood := good_dropFront he hsize ho.sizeAligned
        by_cases hmeets : ∃ k ∈ r, Meets o k
        · obtain ⟨k, hk, hok⟩ := hmeets
          refine iff_of_true ⟨hsize, .inl ⟨k, hk, hok⟩⟩ (.inl ⟨k, hk, hok, ?_⟩)
          unfold Meets at hok
          omega
        · have hnone : ¬ ∃ k ∈ r, Meets o k ∧ k.physicalStart < e.physicalStart + e.size := by
            rintro ⟨k, hk, hok, -⟩
            exact hmeets ⟨k, hk, hok⟩
          rw [and_iff_right hsize, or_iff_right hmeets, or_iff_right hnone,
            ih _ r (by simp) hr hgood ?_]
          · exact jammed_congr (by omega) rfl
          · intro k hk
            have h₁ := hob k hk
            have h₂ : ¬ Meets o k := fun hok => hmeets ⟨k, hk, hok⟩
            unfold Before at h₁
            unfold Meets at h₂
            omega
      · refine iff_of_false (fun hx => hsize hx.1) ?_
        rintro (⟨k, hk, hok, hlt⟩ | hjam)
        · unfold Meets at hok
          omega
        · exact not_jammed ht (by omega) ((jammed_cons ht).mpr (.inr hjam))
    · have hnot : ¬ ∃ m ∈ o :: r, ∃ k ∈ o :: r, Meets n m ∧ Meets m k ∧
          k.physicalStart < e.physicalStart + e.size := by
        rintro ⟨m, hm, -, -, hnm, -⟩
        obtain rfl : o = m := by simpa using h.meets_head hm hnm
        exact hos (hnm.symm.trans hne)
      rw [Option.map_eq_none_iff, or_iff_right hnot]
      refine ih e (o :: r) le_rfl ht he ?_
      refine List.forall_mem_cons.mpr ⟨by omega, fun k hk => ?_⟩
      have := hob k hk
      unfold Before at this
      omega

/-- `fix_overlap` panics where three entries behind `f` are in a row. -/
theorem settle_eq_none (h : Tidy r) (hf : Good f)
    (hr : ∀ k ∈ r, f.physicalStart < k.physicalStart) :
    settle table f r = none ↔ Jammed table f r := by
  induction hlen : r.length using Nat.strong_induction_on generalizing f r with
  | _ len ih =>
  cases r with
  | nil => simp [settle, Jammed]
  | cons n r =>
    obtain ⟨hn, hb, ht⟩ := tidy_cons.mp h
    have hne := hn.nonempty
    have hnf := hr n List.mem_cons_self
    rw [List.length_cons] at hlen
    by_cases hov : f.physicalStart + f.size ≤ n.physicalStart
    · rw [settle_apart hov]
      exact iff_of_false (by simp) (not_jammed h (by omega))
    rw [settle_overlap hov]
    split_ifs with hlt hw hgt hw
    · exact iff_of_false (by simp) (not_jammed h hlt.le)
    · exact iff_of_false (by simp) (not_jammed h hlt.le)
    · rw [ih r.length (by omega) ht hf (fun k hk => hr k (List.mem_cons_of_mem _ hk)) rfl,
        jammed_cons h]
      simp [hw.not_gt]
    · have hend : (tailEntry f n).physicalStart + (tailEntry f n).size =
          f.physicalStart + f.size := by
        simp only [tailEntry]
        omega
      rw [Option.map_eq_none_iff, jammed_cons h, and_iff_right (not_le.mp hw),
        readd_eq_none h (good_tailEntry hf hn hgt) rfl fun f' r' hle ht' hf' hr' =>
          ih r'.length (by omega) ht' hf' hr' rfl, hend, jammed_congr hend rfl]
    · exact iff_of_false (by simp) (not_jammed h (by omega))

/-- What is left of `f` is all of it, or ends where another entry starts. -/
theorem settle_end {x : MemoryMapEntry × List MemoryMapEntry} (h : settle table f r = some x)
    (hr : ∀ k ∈ r, f.physicalStart < k.physicalStart) :
    x.1.physicalStart + x.1.size = f.physicalStart + f.size ∨
      ∃ m ∈ r, x.1.physicalStart + x.1.size = m.physicalStart := by
  induction r with
  | nil =>
    obtain rfl := Option.some.inj h
    exact .inl rfl
  | cons n r ih =>
    have hn := hr n List.mem_cons_self
    have hcut : (cutFirst f n).physicalStart + (cutFirst f n).size = n.physicalStart := by
      simp only [cutFirst]
      omega
    by_cases hb : f.physicalStart + f.size ≤ n.physicalStart
    · rw [settle_apart hb] at h
      obtain rfl := Option.some.inj h
      exact .inl rfl
    · rw [settle_overlap hb] at h
      split_ifs at h
      · obtain rfl := Option.some.inj h
        exact .inl rfl
      · obtain rfl := Option.some.inj h
        exact .inr ⟨n, List.mem_cons_self, hcut⟩
      · refine (ih h fun k hk => hr k (List.mem_cons_of_mem _ hk)).imp_right ?_
        rintro ⟨m, hm, hend⟩
        exact ⟨m, List.mem_cons_of_mem _ hm, hend⟩
      · obtain ⟨k, -, rfl⟩ := Option.map_eq_some_iff.mp h
        exact .inr ⟨n, List.mem_cons_self, hcut⟩
      · obtain rfl := Option.some.inj h
        exact .inr ⟨n, List.mem_cons_self, hcut⟩

theorem joinAt_ne_nil : joinAt l n r ≠ [] := by
  have hnext : ∀ m, joinNext m r ≠ [] := by
    intro m
    cases r with
    | nil => simp [joinNext]
    | cons k r =>
      rw [joinNext]
      split_ifs <;> simp
  unfold joinAt
  split
  · exact hnext n
  · split_ifs <;> simp [hnext]

/-- An entry in front of all others is only joined. -/
theorem readd_before {p : MemoryMapEntry} (he : Good e) (hr : ∀ k ∈ r, Before e k) :
    readd table p e r = some (joinAt [p] e r) := by
  cases r with
  | nil => rfl
  | cons o r =>
    have ho := hr o List.mem_cons_self
    have hpos := he.nonempty
    have hne : ¬ o.physicalStart = e.physicalStart := by
      unfold Before at ho
      omega
    rw [readd, if_neg hne, settle_apart ho]
    rfl

/-- An entry that stays inside of `p` has met nothing behind `p`. -/
theorem settle_inside {p : MemoryMapEntry} {x : MemoryMapEntry × List MemoryMapEntry}
    (hb : ∀ k ∈ r, Before p k) (hr : ∀ k ∈ r, e.physicalStart < k.physicalStart)
    (hs : settle table e r = some x)
    (hlt : x.1.physicalStart + x.1.size < p.physicalStart + p.size) : x = (e, r) := by
  have hend : x.1.physicalStart + x.1.size = e.physicalStart + e.size := by
    refine (settle_end hs hr).resolve_right ?_
    rintro ⟨m, hm, hend⟩
    have := hb m hm
    unfold Before at this
    omega
  have hbefore : ∀ k ∈ r, Before e k := by
    intro k hk
    have := hb k hk
    unfold Before at *
    omega
  exact (Option.some.inj ((settle_before hbefore).symm.trans hs)).symm

/-- Fixing up the entry in front of the new one does not panic. -/
theorem settle_previous {p : MemoryMapEntry} {x : MemoryMapEntry × List MemoryMapEntry}
    (h : Tidy (p :: r)) (he : Good e) (hp : p.physicalStart < e.physicalStart)
    (hr : ∀ k ∈ r, e.physicalStart < k.physicalStart) (hred : ¬ Redundant table e p)
    (hs : settle table e r = some x) :
    ∃ p' m r', settle table p (x.1 :: x.2) = some (p', m :: r') := by
  obtain ⟨hg, hb, ht⟩ := tidy_cons.mp h
  obtain ⟨hstart, htype⟩ := settle_start hs
  by_cases hapart : p.physicalStart + p.size ≤ x.1.physicalStart
  · exact ⟨_, _, _, settle_apart hapart⟩
  rw [settle_overlap hapart]
  split_ifs with h₁ h₂ h₃ h₄
  · exact ⟨_, _, _, rfl⟩
  · exact ⟨_, _, _, rfl⟩
  · obtain rfl := settle_inside hb hr hs h₃
    exact absurd ⟨hp, h₃, h₄⟩ hred
  · obtain rfl := settle_inside hb hr hs h₃
    have htail : ∀ k ∈ r, Before (tailEntry p e) k := by
      intro k hk
      have := hb k hk
      simp only [Before, tailEntry] at *
      omega
    rw [readd_before (good_tailEntry hg he h₃) htail]
    obtain ⟨m, r', hjoin⟩ := List.exists_cons_of_ne_nil (joinAt_ne_nil (l :=
      [{ e with attributes := p.attributes ||| e.attributes }]) (n := tailEntry p e) (r := r))
    exact ⟨_, m, r', by rw [Option.map_some, hjoin]⟩
  · exact ⟨_, _, _, rfl⟩

theorem between_eq_none (h : Tidy (l ++ r)) (he : Good e)
    (hl : ∀ k ∈ l, k.physicalStart < e.physicalStart)
    (hr : ∀ k ∈ r, e.physicalStart < k.physicalStart)
    (hred : ∀ k ∈ l ++ r, ¬ Redundant table e k) :
    between table l e r = none ↔ Jammed table e r := by
  obtain ⟨-, tr, -⟩ := tidy_append.mp h
  rw [← settle_eq_none tr he hr]
  cases hs : settle table e r with
  | none => simp [between, hs]
  | some x =>
    refine iff_of_false ?_ (by simp)
    rcases List.eq_nil_or_concat l with rfl | ⟨l, p, rfl⟩
    · simp [between_nil, hs]
    · rw [List.concat_eq_append] at h hl hred ⊢
      have hp : Tidy (p :: r) := (tidy_append.mp (by simpa using h : Tidy (l ++ p :: r))).2.1
      obtain ⟨p', m, r', hprev⟩ := settle_previous hp he (hl p (by simp)) hr (hred p (by simp)) hs
      rw [between_concat hs, hprev]
      simp

end Lists

/-- An entry is met by another one before the end of `e`; it starts where `e`
does, or where an entry inside of `e` that is stronger ends. -/
def Jams (table : List MemoryType) (e : MemoryMapEntry) (es : List MemoryMapEntry) : Prop :=
  ∃ m ∈ es, ∃ n ∈ es, Meets m n ∧ n.physicalStart < e.physicalStart + e.size ∧
    (m.physicalStart = e.physicalStart ∨
      ∃ k ∈ es, Meets k m ∧ e.physicalStart < k.physicalStart ∧ rank table k.type < rank table e.type)

instance (table : List MemoryType) (e : MemoryMapEntry) (es : List MemoryMapEntry) :
    Decidable (Jams table e es) :=
  inferInstanceAs (Decidable (∃ _ ∈ _, ∃ _ ∈ _, _ ∧ _ ∧ (_ ∨ ∃ _ ∈ _, _ ∧ _ ∧ _)))

section Adding

variable {table : List MemoryType} {e o : MemoryMapEntry} {es l r : List MemoryMapEntry}

theorem Tidy.starts (h : Tidy es) :
    es.Pairwise fun a b => a.physicalStart < b.physicalStart := by
  refine h.apart.imp_of_mem ?_
  intro a b ha _ hab
  have := (h.good a ha).nonempty
  unfold Before at hab
  omega

theorem Tidy.apart_or (h : Tidy es) {a b : MemoryMapEntry} (ha : a ∈ es) (hb : b ∈ es) :
    a = b ∨ Before a b ∨ Before b a := by
  have hfront : es.Pairwise fun a b => a = b ∨ Before a b ∨ Before b a :=
    h.apart.imp fun hab => .inr (.inl hab)
  have hback : es.Pairwise (flip fun a b => a = b ∨ Before a b ∨ Before b a) :=
    h.apart.imp fun hab => .inr (.inr hab)
  exact List.Pairwise.forall_of_forall_of_flip (fun a _ => .inl rfl) hfront hback ha hb

/-- The entries in front of the new one do not count. -/
theorem jams_append (hl : ∀ k ∈ l, k.physicalStart < e.physicalStart) :
    Jams table e (l ++ r) ↔ Jams table e r := by
  have hmem : ∀ k ∈ l ++ r, e.physicalStart ≤ k.physicalStart → k ∈ r := by
    intro k hk hle
    refine (List.mem_append.mp hk).resolve_left fun hk => ?_
    have := hl k hk
    omega
  constructor
  · rintro ⟨m, hm, n, hn, hmn, hlt, hside⟩
    unfold Meets at hmn
    rcases hside with hstart | ⟨k, hk, hkm, hek, hrank⟩
    · exact ⟨m, hmem m hm hstart.ge, n, hmem n hn (by omega), hmn, hlt, .inl hstart⟩
    · unfold Meets at hkm
      exact ⟨m, hmem m hm (by omega), n, hmem n hn (by omega), hmn, hlt,
        .inr ⟨k, hmem k hk hek.le, hkm, hek, hrank⟩⟩
  · rintro ⟨m, hm, n, hn, hmn, hlt, hside⟩
    refine ⟨m, List.mem_append_right _ hm, n, List.mem_append_right _ hn, hmn, hlt, ?_⟩
    refine hside.imp_right ?_
    rintro ⟨k, hk, hkm⟩
    exact ⟨k, List.mem_append_right _ hk, hkm⟩

theorem jams_above (hr : ∀ k ∈ r, e.physicalStart < k.physicalStart) :
    Jams table e r ↔ Jammed table e r := by
  constructor
  · rintro ⟨m, hm, n, hn, hmn, hlt, hstart | ⟨k, hk, hkm, hek, hrank⟩⟩
    · exact absurd hstart (hr m hm).ne'
    · exact ⟨k, hk, m, hm, n, hn, hkm, hmn, hlt, hrank⟩
  · rintro ⟨k, hk, m, hm, n, hn, hkm, hmn, hlt, hrank⟩
    exact ⟨m, hm, n, hn, hmn, hlt, .inr ⟨k, hk, hkm, hr k hk, hrank⟩⟩

theorem jams_old (h : Tidy (o :: r)) (he : Good e) (ho : o.physicalStart = e.physicalStart) :
    Jams table e (o :: r) ↔
      o.size < e.size ∧ ((∃ k ∈ r, Meets o k) ∨ Jammed table (dropFront e o.size) r) := by
  obtain ⟨hg, hb, ht⟩ := tidy_cons.mp h
  have hpos := hg.nonempty
  have habove : ∀ k ∈ r, e.physicalStart + o.size ≤ k.physicalStart := by
    intro k hk
    have := hb k hk
    unfold Before at this
    omega
  have hdrop : o.size < e.size → (Jammed table (dropFront e o.size) r ↔ Jammed table e r) := by
    intro hsize
    have := dropFront_eq he hsize
    exact jammed_congr (by omega) rfl
  constructor
  · rintro ⟨m, hm, n, hn, hmn, hlt, hstart | ⟨k, hk, hkm, hek, hrank⟩⟩
    · have hn' := h.behind hm hn hmn
      have hle := habove n hn'
      obtain rfl : m = o := by
        refine (List.mem_cons.mp hm).resolve_right fun hm => ?_
        have := habove m hm
        omega
      exact ⟨by omega, .inl ⟨n, hn', hmn⟩⟩
    · have hm' := h.behind hk hm hkm
      have hn' := h.behind hm hn hmn
      have hk' : k ∈ r := by
        refine (List.mem_cons.mp hk).resolve_left ?_
        rintro rfl
        omega
      have hle := habove n hn'
      have hsize : o.size < e.size := by omega
      exact ⟨hsize, .inr ((hdrop hsize).mpr ⟨k, hk', m, hm', n, hn', hkm, hmn, hlt, hrank⟩)⟩
  · rintro ⟨hsize, ⟨k, hk, hok⟩ | hjam⟩
    · refine ⟨o, List.mem_cons_self, k, List.mem_cons_of_mem _ hk, hok, ?_, .inl ho⟩
      unfold Meets at hok
      omega
    · obtain ⟨k, hk, m, hm, n, hn, hkm, hmn, hlt, hrank⟩ := (hdrop hsize).mp hjam
      refine ⟨m, List.mem_cons_of_mem _ hm, n, List.mem_cons_of_mem _ hn, hmn, hlt,
        .inr ⟨k, List.mem_cons_of_mem _ hk, hkm, ?_, hrank⟩⟩
      have := habove k hk
      omega

/-- Inside of another entry nothing is met. -/
theorem not_jams (h : Tidy es) {m : MemoryMapEntry} (hm : m ∈ es) (hred : Redundant table e m) :
    ¬ Jams table e es := by
  obtain ⟨h₁, h₂, -⟩ := hred
  rintro ⟨a, ha, n, -, han, hlt, hside⟩
  have hle : e.physicalStart ≤ a.physicalStart := by
    rcases hside with hstart | ⟨k, -, hka, hek, -⟩
    · exact hstart.ge
    · unfold Meets at hka
      omega
  have hpos := (h.good a ha).nonempty
  unfold Meets at han
  rcases h.apart_or ha hm with rfl | hb | hb
  · omega
  · unfold Before at hb
    omega
  · unfold Before at hb
    omega

/-- Adding an entry panics exactly where it jams. -/
theorem addTo_eq_none (h : Tidy es) (he : Good e) :
    addTo table e es = none ↔ Jams table e es := by
  by_cases hred : ∃ m ∈ es, Redundant table e m
  · obtain ⟨m, hm, hred⟩ := hred
    rw [addTo, if_pos ⟨m, hm, hred⟩]
    exact iff_of_false (by simp) (not_jams h hm hred)
  have hnone : ∀ k ∈ es, ¬ Redundant table e k := fun k hk hk' => hred ⟨k, hk, hk'⟩
  rcases Links.split_at_key h.starts e.physicalStart with
    ⟨l, o, r, rfl, ho, hl, hr⟩ | ⟨l, r, rfl, hl, hr⟩
  · have tor := (tidy_append.mp h).2.1
    obtain ⟨hg, hb, tr⟩ := tidy_cons.mp tor
    rw [jams_append hl, addTo_old hnone hl ho, besideOld_eq_none he tor ho, jams_old tor he ho]
    refine and_congr_right fun hsize => ?_
    by_cases hmeets : ∃ k ∈ r, Meets o k
    · exact iff_of_true (.inl hmeets) (.inl hmeets)
    · rw [or_iff_right hmeets, or_iff_right hmeets]
      refine settle_eq_none tr (good_dropFront he hsize hg.sizeAligned) ?_
      intro k hk
      rw [(dropFront_eq he hsize).1]
      have h₁ := hb k hk
      have h₂ : ¬ Meets o k := fun hok => hmeets ⟨k, hk, hok⟩
      unfold Before at h₁
      unfold Meets at h₂
      omega
  · rw [jams_append hl, addTo_between hnone hl hr, between_eq_none h he hl hr hnone, jams_above hr]

end Adding

section Calls

variable {T : Target} {s : State} {e : MemoryMapEntry} {fuel : ℕ}

/-- The map is well formed when a node is issued, if one is. -/
theorem readied_wellFormed (h : WellFormed T s) (hg : Good e) (hfine : RefillFine T s) :
    mmapAddEntry T (fuel + 1) e s = .panicked "Out of memory" s ∨ WellFormed T (readied T s) := by
  rw [mmapAddEntry_aligned T fuel hg]
  cases hcall : mmapAllocEntry T s with
  | error m =>
    left
    rw [insertEntry, hcall, (mmapAllocEntry_error hcall).2]
  | ok res => exact .inr (readied_kept h hfine hcall).1.wellFormed

/-- How a page-aligned piece ends. -/
theorem addEntry_jams (h : WellFormed T s) (hg : Good e)
    (hpiece : 2 * capacity T s + 4 ≤ fuel ∧ ¬ Clobbers s e ∧
      (mmapAddEntry T fuel e s).state.refills = s.refills ∨ Steady T fuel [e] s) :
    (∃ u, mmapAddEntry T fuel e s = .returned u ∧ WellFormed T u ∧
      ¬ Jams s.overlapPrecedence e (readied T s).entries) ∨
    (∃ t, mmapAddEntry T fuel e s = .panicked "Out of memory" t) ∨
    ∃ t, mmapAddEntry T fuel e s = .panicked "Bad memory map tree?" t ∧
      Jams s.overlapPrecedence e (readied T s).entries := by
  obtain ⟨fuel, rfl⟩ : ∃ j, fuel = j + 1 := by
    rcases hpiece with ⟨hfuel, -⟩ | ⟨hfuel, -⟩
    · exact ⟨fuel - 1, by omega⟩
    · exact ⟨fuel - 1, by omega⟩
  -- what the pool does not have a node for is a panic or a page taken
  obtain ⟨hfine, hends, hpanics⟩ | hdry : (RefillFine T s ∧
      (mmapAddEntry T (fuel + 1) e s).Ends (fun u => WellFormed T u ∧
        addTo s.overlapPrecedence e (readied T s).entries = some u.entries) ∧
      (mmapAddEntry T (fuel + 1) e s).Panics
        (PanicsAs (addTo s.overlapPrecedence e (readied T s).entries))) ∨
      mmapAddEntry T (fuel + 1) e s = .panicked "Out of memory" s := by
    rcases hpiece with ⟨hfuel, hclob, hnone⟩ | ⟨hfuel, hfine, hred, hnone, -⟩
    · by_cases hpool : PoolReady s
      · have hadd := addEntry_addTo h hg hclob hfuel
        rw [readied, if_pos hpool]
        exact .inl ⟨.inl hpool, (hadd.ends hnone).mono fun u hu => ⟨hu.1.wellFormed, hu.2⟩,
          hadd.panics hnone⟩
      · rw [mmapAddEntry_aligned T fuel hg] at hnone ⊢
        rcases insertEntry_dry hpool (addEntry_monotone T fuel).1 with hpanic | hlt
        · exact .inr hpanic
        · exact absurd hnone hlt.ne'
    · obtain ⟨hends, hpanics⟩ := addEntry_readied h hg hfuel hfine hred hnone
      exact .inl ⟨hfine, hends.mono fun u hu => ⟨hu.1.wellFormed, hu.2⟩, hpanics⟩
  · rcases readied_wellFormed h hg hfine with hdry | hready
    · exact .inr (.inl ⟨s, hdry⟩)
    have hjams : addTo s.overlapPrecedence e (readied T s).entries = none ↔ _ :=
      addTo_eq_none hready.tidy hg
    cases hcall : mmapAddEntry T (fuel + 1) e s with
    | returned u =>
      rw [hcall] at hends
      obtain ⟨hwf, hlist⟩ := hends
      exact .inl ⟨u, rfl, hwf, fun hjam => by simp [hjams.mpr hjam] at hlist⟩
    | panicked m t =>
      rcases hpanics m t hcall with rfl | ⟨rfl, hnone⟩
      · exact .inr (.inl ⟨t, rfl⟩)
      · exact .inr (.inr ⟨t, rfl, hjams.mp hnone⟩)
    | outOfFuel t =>
      rw [hcall] at hends
      exact hends.elim
  · exact .inr (.inl ⟨s, hdry⟩)

/-- No piece jams the map at the moment its node is issued. -/
def JamFree (T : Target) (fuel : ℕ) : List MemoryMapEntry → State → Prop
  | [], _ => True
  | e :: es, s => ¬ Jams s.overlapPrecedence e (readied T s).entries ∧
    (mmapAddEntry T fuel e s).Returns (JamFree T fuel es)

/-- The pieces of a range, one after the other. -/
theorem addAll_jams {es : List MemoryMapEntry} (h : WellFormed T s) (hgood : ∀ m ∈ es, Good m)
    (horder : OrderlyPieces T fuel es s) :
    (∃ u, addAll T fuel es s = .returned u ∧ JamFree T fuel es s) ∨
    (∃ t, addAll T fuel es s = .panicked "Out of memory" t) ∨
    ∃ t, addAll T fuel es s = .panicked "Bad memory map tree?" t ∧ ¬ JamFree T fuel es s := by
  induction es generalizing s with
  | nil => exact .inl ⟨s, rfl, trivial⟩
  | cons e es ih =>
    obtain ⟨hg, hes⟩ := List.forall_mem_cons.mp hgood
    obtain ⟨hpiece, hrest⟩ := horder
    rw [addAll, JamFree]
    rcases addEntry_jams h hg hpiece with ⟨u, hu, hwf, hjam⟩ | ⟨t, ht⟩ | ⟨t, ht, hjam⟩
    · rw [hu] at hrest ⊢
      rcases ih hwf hes hrest with ⟨v, hv, hfree⟩ | ⟨t, ht⟩ | ⟨t, ht, hfree⟩
      · exact .inl ⟨v, hv, hjam, hfree⟩
      · exact .inr (.inl ⟨t, ht⟩)
      · exact .inr (.inr ⟨t, ht, fun h => hfree h.2⟩)
    · rw [ht]
      exact .inr (.inl ⟨t, rfl⟩)
    · rw [ht]
      exact .inr (.inr ⟨t, rfl, fun h => h.1 hjam⟩)

end Calls

/-- Two ranges of one page that touch. -/
def touching : State :=
  { State.initial .lp64 with
    entry := fun n =>
      if n = 0x20000 then { type := .loaderCode, physicalStart := 0, size := 0x1000 }
      else { type := .loaderData, physicalStart := 0x1000, size := 0x1000 }
    tree := [0x20000, 0x20048]
    allocNext := 0x20090
    allocatable := 30 }

theorem touching_wellFormed : WellFormed .lp64 touching := by
  refine ⟨overlapPrecedence_complete, ⟨[], rfl, by decide, by decide, by decide⟩, ⟨?_, ?_⟩⟩
  · intro e he
    simp only [State.entries, touching, List.map_cons, List.map_nil, List.mem_cons,
      List.not_mem_nil, or_false] at he
    rcases he with rfl | rfl
    · exact ⟨by decide, by decide, by decide, by decide⟩
    · exact ⟨by decide, by decide, by decide, by decide⟩
  · exact List.pairwise_pair.mpr (by unfold Before; decide)

/-- From the second range on. -/
def fromSecond : MemoryMapEntry :=
  { type := .conventionalMemory, physicalStart := 0x1000, size := 0x2000 }

end Gandr.Mmap

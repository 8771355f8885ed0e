import Gandr.Mmap.Jams

/-! Runs of `mmap_add_entry` and touching entries of one type. `merge_adjacent`
is called for one node of an add; an entry at either end of the new one that is
given its type is not merged with what lies beyond. -/

namespace Gandr.Mmap

/-- What was made of a tidy list: it is tidy, starts no earlier, and is as
maximal as the list was if `ok` holds. -/
structure Remade (es es' : List MemoryMapEntry) (ok : Prop) : Prop where
  tidy : Tidy es'
  lower : ∀ k ∈ es', ∃ a ∈ es, a.physicalStart ≤ k.physicalStart
  maximal : Maximal es → ok → Maximal es'

section Remade

variable {es l r : List MemoryMapEntry} {m o : MemoryMapEntry} {ok : Prop}

theorem Remade.joinAt (h : Tidy (l ++ m :: r))
    (hlower : ∀ k ∈ l ++ m :: r, ∃ a ∈ es, a.physicalStart ≤ k.physicalStart)
    (hmax : Maximal es → ok → Maximal l ∧ Maximal r) : Remade es (Mmap.joinAt l m r) ok where
  tidy := tidy_joinAt h
  lower k hk := by
    obtain ⟨b, hb, hkb⟩ := mem_joinAt hk
    obtain ⟨a, ha, hab⟩ := hlower b hb
    exact ⟨a, ha, hab.trans hkb.ge⟩
  maximal he hok := maximal_joinAt h (hmax he hok).1 (hmax he hok).2

theorem joinAt_apart (h : ¬ Joins o m) : Mmap.joinAt [o] m r = o :: joinNext m r := by
  simp [Mmap.joinAt, h]

/-- What lies before the first entry lies before all. -/
theorem tidy_before (ho : Good o) (h : Tidy (m :: r)) (hom : Before o m) : Tidy (o :: m :: r) := by
  obtain ⟨-, hb, -⟩ := tidy_cons.mp h
  refine tidy_cons.mpr ⟨ho, List.forall_mem_cons.mpr ⟨hom, fun k hk => ?_⟩, h⟩
  have := hb k hk
  unfold Before at *
  omega

/-- What lies before an entry lies before another one of equal start. -/
theorem tidy_behind (h : Tidy (l ++ [o])) (h' : Tidy (m :: r))
    (hstart : m.physicalStart = o.physicalStart) : Tidy (l ++ m :: r) := by
  obtain ⟨tl, -, hlo⟩ := tidy_append.mp h
  obtain ⟨-, hb, -⟩ := tidy_cons.mp h'
  refine tidy_append.mpr ⟨tl, h', fun a ha => ?_⟩
  have hao := hlo a ha o List.mem_cons_self
  refine List.forall_mem_cons.mpr ⟨?_, fun k hk => ?_⟩
  · unfold Before at *
    omega
  · have := hb k hk
    unfold Before at *
    omega

/-- The first entry counts by its type and its end, the last one by its type and
its start. -/
theorem maximal_replace_first (h : Maximal (o :: r)) (htype : m.type = o.type)
    (hend : m.physicalStart + m.size = o.physicalStart + o.size) : Maximal (m :: r) := by
  obtain ⟨hsep, hr⟩ := List.pairwise_cons.mp h
  refine List.pairwise_cons.mpr ⟨fun b hb htb hmb => ?_, hr⟩
  exact hsep b hb (htype.symm.trans htb) (hend.symm.trans hmb)

theorem maximal_replace_last (h : Maximal (l ++ [o])) (htype : m.type = o.type)
    (hstart : m.physicalStart = o.physicalStart) : Maximal (l ++ [m]) := by
  obtain ⟨hl, -, hsep⟩ := List.pairwise_append.mp h
  refine List.pairwise_append.mpr ⟨hl, List.pairwise_singleton _ _, ?_⟩
  intro a ha b hb
  obtain rfl := List.mem_singleton.mp hb
  intro htb hab
  exact hsep a ha o List.mem_cons_self (htb.trans htype) (hab.trans hstart)

end Remade

/-- The entry that ends with `f` is weaker and is met by one of the type of `f`,
and no stronger entry than `f` meets it. -/
def EndsTouching (table : List MemoryType) (f : MemoryMapEntry) (r : List MemoryMapEntry) : Prop :=
  ∃ m ∈ r, ∃ n ∈ r, Meets m n ∧ n.type = f.type ∧ rank table f.type < rank table m.type ∧
    m.physicalStart + m.size = f.physicalStart + f.size ∧
    ∀ k ∈ r, Meets k m → rank table f.type ≤ rank table k.type

/-- What `settle` leaves of `f` and the entries behind it. -/
structure Rest (table : List MemoryType) (f : MemoryMapEntry) (r : List MemoryMapEntry)
    (x : MemoryMapEntry × List MemoryMapEntry) : Prop where
  start : x.1.physicalStart = f.physicalStart
  tidy : Tidy (x.1 :: x.2)
  lower : ∀ k ∈ x.2, ∃ a ∈ r, a.physicalStart ≤ k.physicalStart
  maximal : Maximal r → ¬ EndsTouching table f r → Maximal x.2

section Old

variable {table : List MemoryType} {e o : MemoryMapEntry} {l r l' : List MemoryMapEntry}
  {y : Option (MemoryMapEntry × List MemoryMapEntry)}

theorem higherPrecedence_cases (hc : Complete table) (a b : MemoryType) :
    higherPrecedence table a b = a ∧ rank table a ≤ rank table b ∨
      higherPrecedence table a b = b ∧ rank table b < rank table a := by
  rw [higherPrecedence_eq a b (hc a)]
  split_ifs with h
  · exact .inl ⟨rfl, h⟩
  · exact .inr ⟨rfl, not_le.mp h⟩

/-- Entries that keep their ranges keep the list tidy. -/
theorem tidy_retype {t : MemoryType} (h : Tidy (l ++ o :: r)) :
    Tidy (l ++ { o with type := t } :: r) := by
  simp only [tidy_append, tidy_cons, List.forall_mem_cons] at h ⊢
  obtain ⟨hl, ⟨ho, hor, hr⟩, hlo⟩ := h
  exact ⟨hl, ⟨good_retype ho, hor, hr⟩, hlo⟩

theorem lower_behind {q : List MemoryMapEntry}
    (hq : ∀ k ∈ q, o.physicalStart ≤ k.physicalStart) :
    ∀ k ∈ l ++ q, ∃ a ∈ l ++ o :: r, a.physicalStart ≤ k.physicalStart := by
  intro k hk
  rcases List.mem_append.mp hk with hk | hk
  · exact ⟨k, List.mem_append_left _ hk, le_rfl⟩
  · exact ⟨o, by simp, hq k hk⟩

/-- Where `e` meets an entry of equal start. -/
theorem besideOld_remade (hc : Complete table) (h : Tidy (l ++ o :: r)) (he : Good e)
    (ho : o.physicalStart = e.physicalStart)
    (hy : o.size < e.size → (∀ k ∈ r, (dropFront e o.size).physicalStart < k.physicalStart) →
      ∀ x, y = some x → Rest table (dropFront e o.size) r x)
    (hs : besideOld table l e o r y = some l') :
    Remade (l ++ o :: r) l' ((o.size < e.size → rank table e.type < rank table o.type →
      ∀ p ∈ l, Meets p o → p.type ≠ e.type) ∧
      (o.size < e.size → (∀ k ∈ r, ¬ Meets o k) → ¬ EndsTouching table (dropFront e o.size) r)) := by
  obtain ⟨tl, tor, hlo⟩ := tidy_append.mp h
  obtain ⟨hg, hb, tr⟩ := tidy_cons.mp tor
  have hpos := hg.nonempty
  have hmax : Maximal (l ++ o :: r) → Maximal l ∧ Maximal (o :: r) := fun hmax =>
    ⟨(List.pairwise_append.mp hmax).1, (List.pairwise_append.mp hmax).2.1⟩
  have hold : Tidy (l ++ [o]) := by
    refine tidy_append.mpr ⟨tl, tidy_cons.mpr ⟨hg, by simp, tidy_nil⟩, fun a ha => ?_⟩
    simpa using hlo a ha o List.mem_cons_self
  have hbehind : ∀ k ∈ r, o.physicalStart + o.size ≤ k.physicalStart := hb
  unfold besideOld at hs
  dsimp only at hs
  split_ifs at hs with h₁ h₂ h₃
  · obtain rfl := Option.some.inj hs
    refine .joinAt (tidy_retype h) (lower_behind (List.forall_mem_cons.mpr ⟨le_rfl, fun k hk => ?_⟩))
      fun hall _ => ⟨(hmax hall).1, (hmax hall).2.of_cons⟩
    have := hbehind k hk
    omega
  · -- the new entry takes the front of the old one
    obtain ⟨d₁, d₂⟩ := dropFront_eq hg h₂
    obtain rfl := Option.some.inj hs
    have hback : Tidy (dropFront o e.size :: r) := by
      refine tidy_cons.mpr ⟨good_dropFront hg h₂ he.sizeAligned, fun k hk => ?_, tr⟩
      have := hbehind k hk
      unfold Before
      omega
    refine .joinAt (tidy_behind hold (tidy_before (good_retype he) hback ?_) ho.symm)
      (lower_behind (List.forall_mem_cons.mpr ⟨ho.le, List.forall_mem_cons.mpr
        ⟨by omega, fun k hk => ?_⟩⟩))
      fun hall _ => ⟨(hmax hall).1, maximal_replace_first (hmax hall).2 rfl (by omega)⟩
    · simp only [Before]
      omega
    · have := hbehind k hk
      omega
  · -- the rest of the new entry goes on behind the old one
    obtain ⟨x, hx, rfl⟩ := Option.map_eq_some_iff.mp hs
    have hsize : o.size < e.size := by omega
    obtain ⟨d₁, d₂⟩ := dropFront_eq he hsize
    have hfar : ∀ k ∈ r, ¬ Meets o k := by
      intro k hk hok
      refine h₃ ⟨k, tor.meets_head hk hok, ?_⟩
      unfold Meets at hok
      omega
    have habove : ∀ k ∈ r, (dropFront e o.size).physicalStart < k.physicalStart := by
      intro k hk
      have h₁ := hbehind k hk
      have h₂ := hfar k hk
      unfold Meets at h₂
      omega
    have hrest := hy hsize habove x hx
    have hstart := hrest.start
    refine .joinAt ?_ ?_ fun hall hok => ⟨?_, hrest.maximal (hmax hall).2.of_cons
      (hok.2 hsize hfar)⟩
    · rw [List.append_assoc]
      refine tidy_behind hold (tidy_before (good_retype hg) hrest.tidy ?_) rfl
      simp only [Before]
      omega
    · rw [List.append_assoc]
      refine lower_behind (List.forall_mem_cons.mpr ⟨le_rfl, List.forall_mem_cons.mpr
        ⟨by omega, fun k hk => ?_⟩⟩)
      obtain ⟨a, ha, hak⟩ := hrest.lower k hk
      have := hbehind a ha
      omega
    · -- the old entry has its type or that of the new one
      obtain ⟨hl, -, hsep⟩ := List.pairwise_append.mp hall
      refine List.pairwise_append.mpr ⟨hl, List.pairwise_singleton _ _, ?_⟩
      intro p hp b hb
      obtain rfl := List.mem_singleton.mp hb
      intro htype hmeets
      rcases higherPrecedence_cases hc o.type e.type with ⟨hold, -⟩ | ⟨hnew, hrank⟩
      · exact hsep p hp o List.mem_cons_self (htype.trans hold) hmeets
      · exact hok.1 hsize hrank p hp hmeets (htype.trans hnew)

end Old

section Settling

variable {table : List MemoryType} {e f n o : MemoryMapEntry} {r l' : List MemoryMapEntry}

theorem endsTouching_congr (hend : e.physicalStart + e.size = f.physicalStart + f.size)
    (htype : e.type = f.type) : EndsTouching table e r ↔ EndsTouching table f r := by
  simp only [EndsTouching, hend, htype]

theorem EndsTouching.append {l : List MemoryMapEntry} (h : EndsTouching table f r)
    (hl : ∀ k ∈ l, ∀ m ∈ r, Meets k m → rank table f.type ≤ rank table k.type) :
    EndsTouching table f (l ++ r) := by
  obtain ⟨m, hm, k, hk, hmk, htype, hrank, hend, hall⟩ := h
  refine ⟨m, List.mem_append_right _ hm, k, List.mem_append_right _ hk, hmk, htype, hrank, hend, ?_⟩
  intro k hk hkm
  rcases List.mem_append.mp hk with hk | hk
  · exact hl k hk m hm hkm
  · exact hall k hk hkm

/-- The rest of an entry is added behind a stronger entry; `ih` is about shorter
lists. -/
theorem readd_remade {a : ℕ} (hc : Complete table) (h : Tidy (n :: r)) (he : Good e)
    (hne : Meets n e) (hrank : rank table n.type < rank table e.type)
    (ih : ∀ f r', r'.length ≤ r.length → Tidy r' → Good f →
      (∀ k ∈ r', f.physicalStart < k.physicalStart) →
      ∀ x, settle table f r' = some x → Rest table f r' x)
    (hs : readd table { n with attributes := a } e r = some l') :
    Remade (n :: r) l' (¬ EndsTouching table e (n :: r)) := by
  obtain ⟨hn, hb, tr⟩ := tidy_cons.mp h
  have hpos := hn.nonempty
  have htidy : Tidy ({ n with attributes := a } :: r) :=
    tidy_cons.mpr ⟨⟨hn.startAligned, hn.sizeAligned, hn.nonempty, hn.fits⟩, hb, tr⟩
  have hne' : n.physicalStart + n.size = e.physicalStart := hne
  have htype : n.type ≠ e.type := fun htype => by
    rw [htype] at hrank
    exact lt_irrefl _ hrank
  cases r with
  | nil =>
    obtain rfl := Option.some.inj hs
    refine .joinAt (tidy_before (htidy.good _ List.mem_cons_self)
      (tidy_cons.mpr ⟨he, by simp, tidy_nil⟩) hne.le) ?_
      fun _ _ => ⟨List.pairwise_singleton _ _, .nil⟩
    refine List.forall_mem_cons.mpr ⟨⟨n, List.mem_cons_self, le_rfl⟩,
      List.forall_mem_cons.mpr ⟨⟨n, List.mem_cons_self, ?_⟩, by simp⟩⟩
    omega
  | cons o r =>
    obtain ⟨ho, hob, hr⟩ := tidy_cons.mp tr
    have hno := hb o List.mem_cons_self
    rw [readd] at hs
    split_ifs at hs with hos
    · have hold := besideOld_remade (l := [{ n with attributes := a }]) hc htidy he hos ?_ hs
      · refine ⟨hold.tidy, fun k hk => ?_, fun hall hok => hold.maximal
          (maximal_replace_first hall rfl rfl) ⟨?_, ?_⟩⟩
        · obtain ⟨b, hb, hbk⟩ := hold.lower k hk
          rcases List.mem_cons.mp hb with rfl | hb
          · exact ⟨n, List.mem_cons_self, hbk⟩
          · exact ⟨b, List.mem_cons_of_mem _ hb, hbk⟩
        · intro _ _ p hp _
          obtain rfl := List.mem_singleton.mp hp
          exact htype
        · -- neither the stronger entry nor the old one meets what lies behind
          intro hsize hfar hends
          obtain ⟨d₁, d₂⟩ := dropFront_eq he hsize
          have hends : EndsTouching table e r :=
            (endsTouching_congr (e := dropFront e o.size) (f := e) (by omega) rfl).mp hends
          refine hok (EndsTouching.append (l := [n, o]) hends ?_)
          refine List.forall_mem_cons.mpr ⟨fun m hm hnm => ?_, List.forall_mem_cons.mpr
            ⟨fun m hm hom => absurd hom (hfar m hm), by simp⟩⟩
          have h₁ := hob m hm
          have h₂ := ho.nonempty
          unfold Before at h₁
          unfold Meets at hnm
          omega
      · intro hsize habove x hx
        exact ih _ r (by simp) hr (good_dropFront he hsize ho.sizeAligned) habove x hx
    · obtain ⟨x, hx, rfl⟩ := Option.map_eq_some_iff.mp hs
      have habove : ∀ k ∈ o :: r, e.physicalStart < k.physicalStart := by
        have hpos' := ho.nonempty
        refine List.forall_mem_cons.mpr ⟨?_, fun k hk => ?_⟩
        · unfold Before at hno
          omega
        · have := hob k hk
          unfold Before at hno this
          omega
      have hrest := ih e (o :: r) le_rfl tr he habove x hx
      have hstart := hrest.start
      refine .joinAt (tidy_before (htidy.good _ List.mem_cons_self) hrest.tidy ?_) ?_
        fun hall hok => ⟨List.pairwise_singleton _ _, ?_⟩
      · simp only [Before]
        omega
      · refine List.forall_mem_cons.mpr ⟨⟨n, List.mem_cons_self, le_rfl⟩,
          List.forall_mem_cons.mpr ⟨⟨n, List.mem_cons_self, by omega⟩, fun k hk => ?_⟩⟩
        obtain ⟨b, hb, hbk⟩ := hrest.lower k hk
        exact ⟨b, List.mem_cons_of_mem _ hb, hbk⟩
      · refine hrest.maximal hall.of_cons fun hends => hok (EndsTouching.append (l := [n]) hends ?_)
        intro k hk m hm hkm
        obtain rfl := List.mem_singleton.mp hk
        have := habove m hm
        unfold Meets at hkm
        omega

/-- `fix_overlap` on a tidy list. -/
theorem settle_rest (hc : Complete table) (h : Tidy r) (hf : Good f)
    (hr : ∀ k ∈ r, f.physicalStart < k.physicalStart)
    {x : MemoryMapEntry × List MemoryMapEntry} (hs : settle table f r = some x) :
    Rest table f r x := by
  induction hlen : r.length using Nat.strong_induction_on generalizing f r x with
  | _ len ih =>
  cases r with
  | nil =>
    obtain rfl := Option.some.inj hs
    exact ⟨rfl, tidy_cons.mpr ⟨hf, by simp, tidy_nil⟩, by simp, fun _ _ => .nil⟩
  | cons n r =>
    obtain ⟨hn, hb, tr⟩ := tidy_cons.mp h
    have hnf := hr n List.mem_cons_self
    rw [List.length_cons] at hlen
    have hself : ∀ k ∈ n :: r, ∃ a ∈ n :: r, a.physicalStart ≤ k.physicalStart :=
      fun k hk => ⟨k, hk, le_rfl⟩
    by_cases hov : f.physicalStart + f.size ≤ n.physicalStart
    · rw [settle_apart hov] at hs
      obtain rfl := Option.some.inj hs
      exact ⟨rfl, tidy_before hf h hov, hself, fun hall _ => hall⟩
    rw [settle_overlap hov] at hs
    split_ifs at hs with hlt hw hgt hw
    · obtain rfl := Option.some.inj hs
      refine ⟨rfl, tidy_cutSecond hf h hlt, List.forall_mem_cons.mpr
        ⟨⟨n, List.mem_cons_self, ?_⟩, fun k hk => hself k (List.mem_cons_of_mem _ hk)⟩,
        fun hall _ => maximal_replace_first hall rfl ?_⟩
      · simp only [cutSecond]
        omega
      · simp only [cutSecond]
        omega
    · obtain rfl := Option.some.inj hs
      exact ⟨rfl, tidy_cutFirst hf h hnf, hself, fun hall _ => hall⟩
    · have hrest := ih r.length (by omega) tr hf (fun k hk => hr k (List.mem_cons_of_mem _ hk)) hs rfl
      refine ⟨hrest.start, hrest.tidy, fun k hk => ?_, fun hall hends =>
        hrest.maximal hall.of_cons fun hlater => hends (EndsTouching.append (l := [n]) hlater ?_)⟩
      · obtain ⟨a, ha, hak⟩ := hrest.lower k hk
        exact ⟨a, List.mem_cons_of_mem _ ha, hak⟩
      · intro k hk m _ _
        obtain rfl := List.mem_singleton.mp hk
        exact hw
    · obtain ⟨l', hl', rfl⟩ := Option.map_eq_some_iff.mp hs
      have hend : (tailEntry f n).physicalStart + (tailEntry f n).size =
          f.physicalStart + f.size := by
        simp only [tailEntry]
        omega
      have hmade := readd_remade hc h (good_tailEntry hf hn hgt) rfl (not_le.mp hw)
        (fun f' r' hle tr' hf' hr' x' hs' => ih r'.length (by omega) tr' hf' hr' hs' rfl) hl'
      rw [endsTouching_congr hend rfl] at hmade
      refine ⟨rfl, tidy_cons.mpr ⟨good_cutFirst hf hn hnf, fun k hk => ?_, hmade.tidy⟩,
        hmade.lower, hmade.maximal⟩
      obtain ⟨a, ha, hak⟩ := hmade.lower k hk
      have hna : n.physicalStart ≤ a.physicalStart := by
        rcases List.mem_cons.mp ha with rfl | ha
        · exact le_rfl
        · have := hb a ha
          unfold Before at this
          omega
      simp only [Before, cutFirst]
      omega
    · obtain rfl := Option.some.inj hs
      refine ⟨rfl, tidy_sameEnd hf h hnf, List.forall_mem_cons.mpr
        ⟨⟨n, List.mem_cons_self, le_rfl⟩, fun k hk => hself k (List.mem_cons_of_mem _ hk)⟩,
        fun hall hends => ?_⟩
      rcases higherPrecedence_cases hc f.type n.type with ⟨hfirst, hle⟩ | ⟨hsecond, -⟩
      · rcases hle.eq_or_lt with heq | hlt
        · exact maximal_replace_first hall (hfirst.trans (rank_inj hc heq)) rfl
        · -- only what is met by `n` could have the type that it gets
          refine List.pairwise_cons.mpr ⟨fun b hb' htype hmeets => ?_, hall.of_cons⟩
          refine hends ⟨n, List.mem_cons_self, b, List.mem_cons_of_mem _ hb', hmeets,
            htype.symm.trans hfirst, hlt, by omega, fun k hk hkn => ?_⟩
          have hmem := h.behind hk List.mem_cons_self hkn
          have := hb n hmem
          have := hn.nonempty
          unfold Before at *
          omega
      · exact maximal_replace_first hall hsecond rfl

end Settling

/-- An entry at one end of `e` is weaker than `e`, and one of the type of `e` lies
beyond it. At the end of `e` no stronger entry inside of `e` meets it; at the
start it is shorter than `e`. -/
def LeavesTouching (table : List MemoryType) (e : MemoryMapEntry) (es : List MemoryMapEntry) :
    Prop :=
  (∃ m ∈ es, ∃ n ∈ es, Meets m n ∧ n.type = e.type ∧ rank table e.type < rank table m.type ∧
    m.physicalStart + m.size = e.physicalStart + e.size ∧ e.physicalStart < m.physicalStart ∧
    ∀ k ∈ es, Meets k m → e.physicalStart < k.physicalStart →
      rank table e.type ≤ rank table k.type) ∨
  ∃ p ∈ es, ∃ m ∈ es, Meets p m ∧ p.type = e.type ∧ rank table e.type < rank table m.type ∧
    m.physicalStart = e.physicalStart ∧ m.size < e.size

instance (table : List MemoryType) (e : MemoryMapEntry) (es : List MemoryMapEntry) :
    Decidable (LeavesTouching table e es) :=
  inferInstanceAs (Decidable ((∃ _ ∈ _, ∃ _ ∈ _, _ ∧ _ ∧ _ ∧ _ ∧ _ ∧ ∀ _ ∈ _, _ → _ → _) ∨
    ∃ _ ∈ _, ∃ _ ∈ _, _ ∧ _ ∧ _ ∧ _ ∧ _))

section Adding

variable {table : List MemoryType} {e o p m : MemoryMapEntry} {es es' l r r' : List MemoryMapEntry}
  {x : MemoryMapEntry × List MemoryMapEntry}

/-- The entries in front of the new one and at its start do not count at its end. -/
theorem EndsTouching.leavesTouching (h : EndsTouching table e r)
    (hr : ∀ k ∈ r, e.physicalStart < k.physicalStart)
    (hl : ∀ k ∈ l, k.physicalStart ≤ e.physicalStart) : LeavesTouching table e (l ++ r) := by
  obtain ⟨m, hm, n, hn, hmn, htype, hrank, hend, hall⟩ := h
  refine .inl ⟨m, List.mem_append_right _ hm, n, List.mem_append_right _ hn, hmn, htype, hrank, hend,
    hr m hm, fun k hk hkm hek => ?_⟩
  rcases List.mem_append.mp hk with hk | hk
  · exact absurd (hl k hk) (not_le.mpr hek)
  · exact hall k hk hkm

/-- Behind the entry in front of the new one there is one that gets merged and
what was maximal. -/
theorem settle_previous_maximal {p' : MemoryMapEntry} (h : Tidy (p :: r)) (he : Good e)
    (hp : p.physicalStart < e.physicalStart) (hr : ∀ k ∈ r, e.physicalStart < k.physicalStart)
    (hred : ¬ Redundant table e p) (hs : settle table e r = some x) (hmax : Maximal r)
    (hx : Maximal x.2) (hprev : settle table p (x.1 :: x.2) = some (p', m :: r')) : Maximal r' := by
  obtain ⟨hg, hb, tr⟩ := tidy_cons.mp h
  by_cases hapart : p.physicalStart + p.size ≤ x.1.physicalStart
  · rw [settle_apart hapart] at hprev
    cases hprev
    exact hx
  rw [settle_overlap hapart] at hprev
  split_ifs at hprev with h₁ h₂ h₃ h₄
  · cases hprev
    exact hx
  · cases hprev
    exact hx
  · obtain rfl := settle_inside hb hr hs h₃
    exact absurd ⟨hp, h₃, h₄⟩ hred
  · obtain rfl := settle_inside hb hr hs h₃
    have htail : ∀ k ∈ r, Before (tailEntry p e) k := by
      intro k hk
      have := hb k hk
      simp only [Before, tailEntry] at *
      omega
    have hgood := good_tailEntry hg he h₃
    have hjoins : ¬ Joins { e with attributes := p.attributes ||| e.attributes } (tailEntry p e) :=
      fun hj => h₄ (le_of_eq (congrArg (rank table) hj.1.symm))
    rw [readd_before hgood htail, Option.map_some] at hprev
    obtain ⟨-, hlist⟩ := Prod.mk.inj (Option.some.inj hprev)
    obtain ⟨-, rfl⟩ := List.cons.inj (hlist.symm.trans (joinAt_apart hjoins))
    exact maximal_joinFirst (tidy_cons.mpr ⟨hgood, htail, tr⟩) hmax
  · cases hprev
    exact hx

/-- The new entry lies between two others. -/
theorem between_maximal (hc : Complete table) (h : Tidy (l ++ r)) (he : Good e)
    (hl : ∀ k ∈ l, k.physicalStart < e.physicalStart)
    (hr : ∀ k ∈ r, e.physicalStart < k.physicalStart)
    (hred : ∀ k ∈ l ++ r, ¬ Redundant table e k) (hmax : Maximal (l ++ r))
    (hends : ¬ EndsTouching table e r) (hs : between table l e r = some es') : Maximal es' := by
  obtain ⟨tl, tr, hlr⟩ := tidy_append.mp h
  obtain ⟨ml, mr, -⟩ := List.pairwise_append.mp hmax
  obtain ⟨x, hx⟩ : ∃ x, settle table e r = some x := by
    cases hx : settle table e r with
    | none => simp [between, hx] at hs
    | some x => exact ⟨x, rfl⟩
  have hrest := settle_rest hc tr he hr hx
  have mx := hrest.maximal mr hends
  rcases List.eq_nil_or_concat l with rfl | ⟨l, p, rfl⟩
  · rw [between_nil, hx] at hs
    obtain rfl := Option.some.inj hs
    exact maximal_joinFirst hrest.tidy mx
  · rw [List.concat_eq_append] at h hl hred hs tl ml
    have hp : Tidy (p :: r) := (tidy_append.mp (by simpa using h : Tidy (l ++ p :: r))).2.1
    have hpe := hl p (by simp)
    have hstart := hrest.start
    have hpx : ∀ k ∈ x.1 :: x.2, p.physicalStart < k.physicalStart := by
      refine List.forall_mem_cons.mpr ⟨by omega, fun k hk => ?_⟩
      obtain ⟨a, ha, hak⟩ := hrest.lower k hk
      have := hr a ha
      omega
    obtain ⟨p', m, r', hprev⟩ := settle_previous hp he hpe hr (hred p (by simp)) hx
    have hprest := settle_rest hc hrest.tidy (hp.good p List.mem_cons_self) hpx hprev
    rw [between_concat hx, hprev] at hs
    obtain rfl := Option.some.inj hs
    refine maximal_joinAt ?_ (maximal_replace_last ml (settle_start hprev).2 hprest.start)
      (settle_previous_maximal hp he hpe hr (hred p (by simp)) hx mr mx hprev)
    rw [List.append_assoc]
    exact tidy_behind tl hprest.tidy hprest.start

/-- An add that leaves no touching entries keeps the list maximal. -/
theorem addTo_maximal (hc : Complete table) (h : Tidy es) (he : Good e) (hmax : Maximal es)
    (htouch : ¬ LeavesTouching table e es) (hs : addTo table e es = some es') : Maximal es' := by
  by_cases hred : ∃ m ∈ es, Redundant table e m
  · rw [addTo, if_pos hred] at hs
    obtain rfl := Option.some.inj hs
    exact hmax
  have hnone : ∀ k ∈ es, ¬ Redundant table e k := fun k hk hk' => hred ⟨k, hk, hk'⟩
  rcases Links.split_at_key h.starts e.physicalStart with
    ⟨l, o, r, rfl, ho, hl, hr⟩ | ⟨l, r, rfl, hl, hr⟩
  · rw [addTo_old hnone hl ho] at hs
    obtain ⟨hg, -, tr⟩ := tidy_cons.mp (tidy_append.mp h).2.1
    have hmade := besideOld_remade hc h he ho (fun hsize habove x hx =>
      settle_rest hc tr (good_dropFront he hsize hg.sizeAligned) habove hx) hs
    refine hmade.maximal hmax ⟨?_, ?_⟩
    · intro hsize hrank p hp hpo htype
      exact htouch (.inr ⟨p, by simp [hp], o, by simp, hpo, htype, hrank, ho, hsize⟩)
    · intro hsize _ hends
      obtain ⟨d₁, d₂⟩ := dropFront_eq he hsize
      have hends : EndsTouching table e r :=
        (endsTouching_congr (e := dropFront e o.size) (f := e) (by omega) rfl).mp hends
      refine htouch ?_
      rw [List.append_cons]
      refine hends.leavesTouching hr fun k hk => ?_
      rcases List.mem_append.mp hk with hk | hk
      · exact (hl k hk).le
      · rw [List.mem_singleton.mp hk, ho]
  · rw [addTo_between hnone hl hr] at hs
    exact between_maximal hc h he hl hr hnone hmax
      (fun hends => htouch (hends.leavesTouching hr fun k hk => (hl k hk).le)) hs

end Adding

/-- Each piece, when it is added, clobbers nothing and leaves no entries of one
type that touch. -/
def MergedPieces (T : Target) (fuel : ℕ) : List MemoryMapEntry → State → Prop
  | [], _ => True
  | e :: es, s => (¬ Clobbers s e ∧ ¬ LeavesTouching s.overlapPrecedence e s.entries) ∧
    (mmapAddEntry T fuel e s).Returns (MergedPieces T fuel es)

instance decidableMergedPieces (T : Target) (fuel : ℕ) :
    (es : List MemoryMapEntry) → DecidablePred (MergedPieces T fuel es)
  | [], _ => .isTrue trivial
  | e :: es, s =>
    have := decidableMergedPieces T fuel es
    inferInstanceAs (Decidable ((¬ Clobbers s e ∧
      ¬ LeavesTouching s.overlapPrecedence e s.entries) ∧
      Outcome.Returns _ (MergedPieces T fuel es)))

def MergedRun (T : Target) (fuel : ℕ) : List MemoryMapEntry → State → Prop
  | [], _ => True
  | e :: es, s => MergedPieces T fuel (pieces e) s ∧
    (mmapAddEntry T (fuel + 1) e s).Returns (MergedRun T fuel es)

instance decidableMergedRun (T : Target) (fuel : ℕ) :
    (es : List MemoryMapEntry) → DecidablePred (MergedRun T fuel es)
  | [], _ => .isTrue trivial
  | e :: es, s =>
    have := decidableMergedRun T fuel es
    inferInstanceAs (Decidable (MergedPieces T fuel (pieces e) s ∧
      Outcome.Returns _ (MergedRun T fuel es)))

section Runs

variable {T : Target} {s : State} {es : List MemoryMapEntry} {fuel : ℕ}

theorem addAll_pieces_merged (h : WellFormed T s) (hmax : Maximal s.entries)
    (hgood : ∀ m ∈ es, Good m) (hfuel : 2 * capacity T s + 4 ≤ fuel)
    (hmerged : MergedPieces T fuel es s) :
    Ensures s (fun u => Gains T s u es ∧ Maximal u.entries) (addAll T fuel es s) := by
  induction es generalizing s with
  | nil => exact .returned fun _ => ⟨.refl h, hmax⟩
  | cons e es ih =>
    obtain ⟨hg, hes⟩ := List.forall_mem_cons.mp hgood
    obtain ⟨⟨hclob, htouch⟩, hrest⟩ := hmerged
    have hstep := ((addEntry_addTo h hg hclob hfuel).weaken fun _ _ => trivial).and_returned
    refine hstep.andThen ((addEntry_monotone T fuel).2 e s) (addAll_monotone _ _ es) ?_
    rintro t - ⟨ht, hgain, hlist⟩
    rw [ht] at hrest
    have hmax' : Maximal t.entries := addTo_maximal h.complete h.tidy hg hmax htouch hlist
    exact (ih hgain.wellFormed hmax' hes (hgain.capacity ▸ hfuel) hrest).mono fun u hu =>
      ⟨hgain.trans hu.1, hu.2⟩

theorem addAll_merged (h : WellFormed T s) (hmax : Maximal s.entries) (hfits : ∀ e ∈ es, Fits e)
    (hfuel : 2 * capacity T s + 4 ≤ fuel) (hmerged : MergedRun T fuel es s) :
    Ensures s (fun u => Maximal u.entries) (addAll T (fuel + 1) es s) := by
  induction es generalizing s with
  | nil => exact .returned fun _ => hmax
  | cons e es ih =>
    obtain ⟨he, hes⟩ := List.forall_mem_cons.mp hfits
    obtain ⟨hpieces, hrest⟩ := hmerged
    have hstep := ((addAll_upTo T fuel he s).endsIn (addAll_monotone T fuel _ s)
      (addAll_pieces_merged h hmax (good_pieces he) hfuel hpieces)).and_returned
    refine hstep.andThen ((addEntry_monotone T (fuel + 1)).2 e s) (addAll_monotone _ _ es) ?_
    rintro t - ⟨ht, hgain, hmax'⟩
    rw [ht] at hrest
    exact ih hgain.wellFormed hmax' hes (hgain.capacity ▸ hfuel) hrest

/-- Every run from the empty map whose pieces leave nothing to merge ends in a
map without touching entries of one type. -/
theorem mmapAddEntry_run_merged (T : Target) (fuel : ℕ) (hfuel : 68 ≤ fuel)
    (es : List MemoryMapEntry) (hfits : ∀ e ∈ es, Fits e)
    (hmerged : MergedRun T fuel es (State.initial T)) :
    Ensures (State.initial T) (fun u => Maximal u.entries)
      (addAll T (fuel + 1) es (State.initial T)) := by
  refine addAll_merged (initial_wellFormed T) .nil hfits ?_ hmerged
  exact le_trans (by simp [capacity, mmapStaticSlots, State.initial]) hfuel

/-- Conventional memory and a range of the loader in the middle of it, which is
then extended. -/
def loaderExtended : List MemoryMapEntry :=
  [{ type := .conventionalMemory, physicalStart := 0, size := 0x10000 },
    { type := .loaderData, physicalStart := 0x4000, size := 0x2000 },
    { type := .loaderData, physicalStart := 0x6000, size := 0x1000 }]

theorem loaderExtended_merged :
    MergedRun .lp64 68 loaderExtended (State.initial .lp64) ∧
      Ensures (State.initial .lp64) (fun u => Maximal u.entries)
        (addAll .lp64 (68 + 1) loaderExtended (State.initial .lp64)) :=
  ⟨by decide +kernel,
    mmapAddEntry_run_merged .lp64 68 le_rfl loaderExtended (by decide) (by decide +kernel)⟩

/-- The last range ends with a weaker one, behind which its type goes on. -/
def behindWeaker : List MemoryMapEntry :=
  [{ type := .loaderData, physicalStart := 0x2000, size := 0x1000 },
    { type := .conventionalMemory, physicalStart := 0x1000, size := 0x1000 },
    { type := .loaderData, physicalStart := 0, size := 0x2000 }]

theorem behindWeaker_not_merged :
    (∀ e ∈ behindWeaker, Fits e) ∧
      ∃ u, addAll .lp64 (68 + 1) behindWeaker (State.initial .lp64) = .returned u ∧
        u.refills = (State.initial .lp64).refills ∧ ¬ Maximal u.entries := by
  obtain ⟨u, hu⟩ := Outcome.exists_returned (by decide +kernel :
    ¬ (addAll .lp64 (68 + 1) behindWeaker (State.initial .lp64)).Returns fun _ => False)
  have hrefills : (addAll .lp64 (68 + 1) behindWeaker (State.initial .lp64)).state.refills =
      (State.initial .lp64).refills := by
    decide +kernel
  have hmax : ¬ Maximal
      (addAll .lp64 (68 + 1) behindWeaker (State.initial .lp64)).state.entries := by
    decide +kernel
  rw [hu] at hrefills hmax
  exact ⟨by decide, u, hu, hrefills, hmax⟩

end Runs

end Gandr.Mmap

import Gandr.RbTree.Model

/-! What the building blocks of the macros do to the links of a tree: replacing
the link to a node, recoloring and rotating. -/

namespace Gandr.RbTree

open RedBlack ColorTree Links

variable {L L' : Links} {up : List (Frame ℕ)} {s : Side} {c c' : Color}
  {a b d t : ColorTree ℕ} {x y p q n : ℕ}

section Replace

@[simp] theorem color_replaceChild : (replaceChild L p x y).color n = L.color n := by
  unfold replaceChild
  split_ifs <;> rfl

@[simp] theorem parent_replaceChild : (replaceChild L p x y).parent n = L.parent n := by
  unfold replaceChild
  split_ifs <;> rfl

theorem child_replaceChild (h : n ≠ 0 → n ≠ p) :
    (replaceChild L p x y).child s n = L.child s n := by
  unfold replaceChild
  split_ifs with h₁
  · have hn : n ≠ p := fun he => h (he ▸ h₁) he
    simp [hn]
  · have hn : n ≠ p := fun he => h (he ▸ h₁) he
    simp [hn]
  · rfl

/-- Another node is linked in the hole. -/
def setHole (L : Links) (up : List (Frame ℕ)) (y : ℕ) : Links :=
  match up with
  | [] => L.setRoot y
  | f :: _ => L.setChild f.side f.key y

theorem same_setHole (hn : n ∉ keys up) : Same L (setHole L up y) n := by
  cases up with
  | nil => exact ⟨⟨rfl, fun _ => rfl⟩, rfl⟩
  | cons f up =>
    simp only [keys, List.mem_cons, not_or] at hn
    exact ⟨⟨rfl, fun s => by simp [setHole, hn.1]⟩, rfl⟩

theorem HoldsUp.setHole (h : L.HoldsUp up x) (hn : (keys up).Nodup) :
    (setHole L up y).HoldsUp up y := by
  cases up with
  | nil => rfl
  | cons f up =>
    obtain ⟨h₀, h₁, h₂, -, h₄, h₅, h₆⟩ := h
    simp only [keys, List.nodup_cons, List.mem_append, not_or] at hn
    have hsame : ∀ m, m ≠ f.key → Same L (L.setChild f.side f.key y) m := by
      intro m hm
      exact ⟨⟨rfl, fun s => by simp [hm]⟩, rfl⟩
    have hk₁ : ∀ m ∈ f.sibling.toList, m ≠ f.key := by
      rintro m hm rfl
      exact hn.1.1 hm
    have hk₂ : ∀ m ∈ keys up, m ≠ f.key := by
      rintro m hm rfl
      exact hn.1.2 hm
    refine ⟨h₀, h₁, h₂, by simp [RbTree.setHole], by simpa [RbTree.setHole] using h₄, ?_, ?_⟩
    · exact h₅.congr fun m hm => hsame m (hk₁ m hm)
    · exact h₆.congr rfl fun m hm => hsame m (hk₂ m hm)

theorem replaceChild_eq (h : L.HoldsUp up x) (hx : x ≠ 0) (hmem : x ∉ keys up) :
    replaceChild L (top up) x y = setHole L up y := by
  cases up with
  | nil => rfl
  | cons f up =>
    obtain ⟨h₀, -, -, h₃, h₄, -, -⟩ := h
    simp only [keys, List.mem_cons, List.mem_append, not_or] at hmem
    have hsib : f.sibling.root ≠ x := by
      intro hroot
      refine hmem.2.1 (hroot ▸ root_mem fun hnil => hx ?_)
      rw [← hroot, hnil]
      rfl
    rw [replaceChild, top, setHole, if_pos h₀]
    cases hs : f.side with
    | left =>
      rw [hs] at h₃
      rw [if_pos h₃.symm]
    | right =>
      rw [hs] at h₄
      exact if_neg fun hleft => hsib (h₄.symm.trans hleft.symm)

/-- The link above a hole is replaced. -/
theorem HoldsUp.replaceChild (h : L.HoldsUp up x) (hx : x ≠ 0) (hmem : x ∉ keys up)
    (hn : (keys up).Nodup) : (replaceChild L (top up) x y).HoldsUp up y := by
  rw [replaceChild_eq h hx hmem]
  exact HoldsUp.setHole h hn

end Replace

section Rotate

theorem Zip.nodup_rotate (h : L.Zip up (branch s c a x (branch s c' b y d))) :
    (x :: y :: (a.toList ++ (b.toList ++ (d.toList ++ keys up)))).Nodup := by
  refine List.Perm.nodup ?_ h.nodup
  refine ((perm_branch s c a (branch s c' b y d) x).append_right _).trans ?_
  rw [List.cons_append, List.append_assoc]
  refine List.Perm.cons x ?_
  refine (((perm_branch s c' b d y).append_right _).append_left a.toList).trans ?_
  rw [List.cons_append, List.append_assoc]
  exact List.perm_middle

/-- The links in a rotation before the one above `x` is replaced. -/
def turned (s : Side) (L : Links) (x : ℕ) : Links :=
  let y := L.child s.other x
  let L := L.setChild s.other x (L.child s y)
  let L := if L.child s.other x ≠ 0 then L.setParent (L.child s y) x else L
  L.setParent y (L.parent x)

theorem rbRotate_eq (hy : L.child s.other x ≠ 0) : rbRotate s L x =
    some (((replaceChild (turned s L x) ((turned s L x).parent x) x (L.child s.other x)).setChild s
      (L.child s.other x) x).setParent x (L.child s.other x)) := by
  rw [rbRotate]
  exact if_neg hy

@[simp] theorem color_turned : (turned s L x).color n = L.color n := by
  unfold turned
  dsimp only
  split_ifs <;> rfl

@[simp] theorem root_turned : (turned s L x).root = L.root := by
  unfold turned
  dsimp only
  split_ifs <;> rfl

theorem child_turned {s' : Side} (hy : L.child s.other x ≠ x) : (turned s L x).child s' n =
    if s' = s.other ∧ n = x then L.child s (L.child s.other x) else L.child s' n := by
  by_cases hb : L.child s (L.child s.other x) = 0
  · simp [turned, hb]
  · simp [turned, hb]

theorem parent_turned (hy : L.child s.other x ≠ x) (hb : L.child s (L.child s.other x) ≠ x) :
    (turned s L x).parent n = if n = L.child s.other x then L.parent x
      else if n ≠ 0 ∧ n = L.child s (L.child s.other x) then x else L.parent n := by
  by_cases hzero : L.child s (L.child s.other x) = 0
  · simp [turned, hzero]
  · have hxb := Ne.symm hb
    have hiff : (n ≠ 0 ∧ n = L.child s (L.child s.other x)) ↔ n = L.child s (L.child s.other x) :=
      ⟨And.right, fun h => ⟨h ▸ hzero, h⟩⟩
    rw [if_congr hiff rfl rfl]
    simp only [turned, child_setChild, and_self, if_true, ne_eq, hzero, not_false_eq_true, hy,
      and_false, if_false, parent_setParent, hxb, parent_setChild]

/-- A rotation of the node `x` in a hole. -/
theorem rotate_zip (h : L.Zip up (branch s c a x (branch s c' b y d))) :
    ∃ L', rbRotate s L x = some L' ∧ L'.Zip up (branch s c' (branch s c a x b) y d) ∧
      (∀ n, L'.color n = L.color n) ∧
      ∀ n ∉ (branch s c a x (branch s c' b y d)).toList ++ keys up, Same L L' n := by
  have hn := Zip.nodup_rotate h
  obtain ⟨hup, ht, hnodup⟩ := h
  rw [root_branch] at hup
  obtain ⟨x₀, x₁, x₂, x₃, x₄, ha, ht⟩ := holds_branch.mp ht
  obtain ⟨y₀, y₁, y₂, y₃, y₄, hb, hd⟩ := holds_branch.mp ht
  rw [root_branch] at x₄
  simp only [List.nodup_cons, List.mem_cons, List.mem_append, not_or, List.nodup_append] at hn
  obtain ⟨⟨hxy, hxa, hxb, hxd, hxu⟩, ⟨hya, hyb, hyd, hyu⟩, na, ⟨nb, ⟨nd, nu, hdu⟩, hbd⟩, had⟩ := hn
  have hbmem : b.root ≠ 0 → b.root ∈ b.toList := by
    intro hroot
    exact root_mem fun hnil => hroot (by rw [hnil]; rfl)
  have hbx : b.root ≠ x := fun he => hxb (he ▸ hbmem (he ▸ x₀))
  have hxtop : x ≠ top up := fun he => hxu (he ▸ top_mem (he ▸ x₀))
  have hytop : y ≠ top up := fun he => hyu (he ▸ top_mem (he ▸ y₀))
  have hparent : ∀ m, (turned s L x).parent m =
      if m = y then top up else if m ≠ 0 ∧ m = b.root then x else L.parent m := by
    intro m
    rw [parent_turned (by rw [x₄]; exact Ne.symm hxy) (by rw [x₄, y₃]; exact hbx), x₄, y₃, x₂]
  have hchild : ∀ s' m, (turned s L x).child s' m =
      if s' = s.other ∧ m = x then b.root else L.child s' m := by
    intro s' m
    rw [child_turned (by rw [x₄]; exact Ne.symm hxy), x₄, y₃]
  have hpx : (turned s L x).parent x = top up := by
    rw [hparent, if_neg hxy, if_neg (fun he => hbx he.2.symm), x₂]
  have hne_top : ∀ m, m ≠ 0 → m ∉ keys up → m ≠ top up := by
    rintro m hm hmem rfl
    exact hmem (top_mem hm)
  have hne_b : ∀ m, m ≠ 0 → m ∉ b.toList → m ≠ b.root := by
    rintro m hm hmem rfl
    exact hmem (hbmem hm)
  have hT : ∀ m, m ≠ x → m ≠ y → (m ≠ 0 → m ≠ b.root) → Same L (turned s L x) m := by
    intro m h₁ h₂ h₃
    refine ⟨⟨color_turned, fun s' => ?_⟩, ?_⟩
    · rw [hchild, if_neg fun h => h₁ h.2]
    · rw [hparent, if_neg h₂, if_neg fun h => h₃ h.1 h.2]
  obtain ⟨L', hL'⟩ : ∃ L', L' = ((replaceChild (turned s L x) (top up) x y).setChild s y x).setParent
    x y := ⟨_, rfl⟩
  have hfinal : ∀ m, m ≠ x → m ≠ y → (m ≠ 0 → m ≠ top up) → (m ≠ 0 → m ≠ b.root) →
      Same L L' m := by
    intro m h₁ h₂ h₃ h₄
    refine (hT m h₁ h₂ h₄).trans ?_
    rw [hL']
    refine ⟨⟨by simp, fun s' => ?_⟩, by simp [h₁]⟩
    simp [h₂, child_replaceChild h₃]
  refine ⟨L', ?_, ⟨?_, ?_, ?_⟩, ?_, ?_⟩
  · rw [rbRotate_eq (by rw [x₄]; exact y₀), hpx, x₄, hL']
  · have hu : ∀ m ∈ keys up, m ≠ x ∧ m ≠ y ∧ (m ≠ 0 → m ≠ b.root) := by
      intro m hm
      refine ⟨fun he => hxu (he ▸ hm), fun he => hyu (he ▸ hm), fun hm0 => hne_b m hm0 ?_⟩
      exact fun hmb => hbd m hmb m (.inr hm) rfl
    have h₁ : (turned s L x).HoldsUp up x := hup.congr root_turned
      fun m hm => hT m (hu m hm).1 (hu m hm).2.1 (hu m hm).2.2
    rw [root_branch, hL']
    refine (HoldsUp.replaceChild h₁ x₀ hxu nu).congr rfl fun m hm => ?_
    exact ⟨⟨rfl, fun s' => by simp [(hu m hm).2.1]⟩, by simp [(hu m hm).1]⟩
  · have hparent_y : L'.parent y = top up := by
      simp [hL', Ne.symm hxy, hparent]
    have hfar_y : L'.child s.other y = d.root := by
      simp [hL', child_replaceChild fun _ => hytop, hchild, Ne.symm hxy, y₄]
    have hnear_x : L'.child s x = a.root := by
      simp [hL', child_replaceChild fun _ => hxtop, hchild, hxy, x₃]
    have hfar_x : L'.child s.other x = b.root := by
      simp [hL', child_replaceChild fun _ => hxtop, hchild]
    have hcolor : ∀ m, L'.color m = L.color m := by
      intro m
      simp [hL']
    have ha' : ∀ m ∈ a.toList, Same L L' m := by
      intro m hm
      refine hfinal m (fun he => hxa (he ▸ hm)) (fun he => hya (he ▸ hm)) (fun hm0 => ?_) fun hm0 => ?_
      · exact hne_top m hm0 fun hmu => had m hm m (.inr (.inr hmu)) rfl
      · exact hne_b m hm0 fun hmb => had m hm m (.inl hmb) rfl
    have hd' : ∀ m ∈ d.toList, Same L L' m := by
      intro m hm
      refine hfinal m (fun he => hxd (he ▸ hm)) (fun he => hyd (he ▸ hm)) (fun hm0 => ?_) fun hm0 => ?_
      · exact hne_top m hm0 fun hmu => hdu m hm m hmu rfl
      · exact hne_b m hm0 fun hmb => hbd m hmb m (.inl hm) rfl
    have hb' : ∀ m ∈ b.toList, m ≠ x ∧ m ≠ y ∧ m ≠ top up := by
      intro m hm
      exact ⟨fun he => hxb (he ▸ hm), fun he => hyb (he ▸ hm),
        hne_top m (hb.ne_zero hm) fun hmu => hbd m hm m (.inr hmu) rfl⟩
    refine holds_branch.mpr ⟨y₀, (hcolor y).trans y₁, hparent_y, by simp [hL'], hfar_y,
      holds_branch.mpr ⟨x₀, (hcolor x).trans x₁, by simp [hL'], hnear_x, hfar_x, ?_, ?_⟩, ?_⟩
    · exact ha.congr ha'
    · refine hb.move nb (fun m hm => ⟨hcolor m, fun s' => ?_⟩) (fun m hm hroot => ?_) fun hroot => ?_
      · obtain ⟨h₁, h₂, h₃⟩ := hb' m hm
        simp [hL', h₂, child_replaceChild fun _ => h₃, hchild, h₁]
      · obtain ⟨h₁, h₂, h₃⟩ := hb' m hm
        exact (hfinal m h₁ h₂ (fun _ => h₃) fun _ => hroot).parent
      · obtain ⟨h₁, h₂, -⟩ := hb' b.root (hbmem hroot)
        simp [hL', h₁, hparent, h₂, hroot]
    · exact hd.congr hd'
  · rw [← toList_rotate s c c']
    exact hnodup
  · intro m
    simp [hL']
  · intro m hm
    rw [List.mem_append, mem_branch, mem_branch] at hm
    push Not at hm
    exact hfinal m hm.1.2.1 hm.1.2.2.2.1 (fun hm0 => hne_top m hm0 hm.2)
      fun hm0 => hne_b m hm0 hm.1.2.2.1

end Rotate

/-- From `L` to `L'` the tree `t` was changed to `t'`, which has the same nodes
in the same order. Other nodes keep their links. -/
structure Becomes (L L' : Links) (t t' : ColorTree ℕ) : Prop where
  zip : L'.Zip [] t'
  toList : t'.toList = t.toList
  outside : ∀ n ∉ t.toList, Same L L' n

theorem Becomes.refl (h : L.Zip [] t) : Becomes L L t t := ⟨h, rfl, fun n _ => Same.refl L n⟩

theorem Becomes.trans {M : Links} {t' u : ColorTree ℕ} (h : Becomes L L' t t')
    (h' : Becomes L' M t' u) : Becomes L M t u :=
  ⟨h'.zip, h'.toList.trans h.toList,
    fun n hn => (h.outside n hn).trans (h'.outside n (h.toList.symm ▸ hn))⟩

theorem mem_fill : n ∈ (fill up t).toList ↔ n ∈ t.toList ++ keys up := (perm_fill up t).mem_iff

theorem toList_fill_congr {u : ColorTree ℕ} (h : u.toList = t.toList) :
    (fill up u).toList = (fill up t).toList := by
  rw [toList_fill, toList_fill, h]

section Color

theorem setColor_eq_self (h : L.color n = c) : L.setColor n c = L := by
  have : (fun m => if m = n then c else L.color m) = L.color := by
    funext m
    split_ifs with hm
    · rw [hm, h]
    · rfl
  rw [setColor, this]

/-- The root of the tree in the hole gets another color. -/
theorem setColor_zip (h : L.Zip up (branch s c a x b)) (c' : Color) :
    Becomes L (L.setColor x c') (fill up (branch s c a x b)) (fill up (branch s c' a x b)) := by
  have hlist : (branch s c' a x b).toList = (branch s c a x b).toList :=
    toList_recolor s c' c a b a b x rfl rfl
  obtain ⟨hup, ht, hn⟩ := h
  obtain ⟨x₀, x₁, x₂, x₃, x₄, ha, hb⟩ := holds_branch.mp ht
  have hne : ∀ m, m ≠ x → Same L (L.setColor x c') m := by
    intro m hm
    exact ⟨⟨by simp [hm], fun _ => rfl⟩, rfl⟩
  have hmem := ((perm_branch s c a b x).append_right (keys up)).nodup_iff.mp hn
  simp only [List.cons_append, List.append_assoc, List.nodup_cons, List.mem_append, not_or] at hmem
  have hin : ∀ m, m ∈ a.toList ∨ m ∈ b.toList ∨ m ∈ keys up → m ≠ x := by
    rintro m hm rfl
    exact hm.elim hmem.1.1 fun hm => hm.elim hmem.1.2.1 hmem.1.2.2
  refine ⟨zip_fill.mp ⟨?_, ?_, hlist ▸ hn⟩, toList_fill_congr hlist, fun m hm => hne m ?_⟩
  · rw [root_branch] at hup ⊢
    exact hup.congr rfl fun m hm => hne m (hin m (.inr (.inr hm)))
  · refine holds_branch.mpr ⟨x₀, by simp, x₂, x₃, x₄, ?_, ?_⟩
    · exact ha.congr fun m hm => hne m (hin m (.inl hm))
    · exact hb.congr fun m hm => hne m (hin m (.inr (.inl hm)))
  · rintro rfl
    exact hm (mem_fill.mpr (List.mem_append_left _ (mem_branch.mpr (.inr (.inl rfl)))))

/-- A rotation in a hole, on the whole tree. -/
theorem rotate_becomes (h : L.Zip up (branch s c a x (branch s c' b y d))) :
    ∃ L', rbRotate s L x = some L' ∧ Becomes L L' (fill up (branch s c a x (branch s c' b y d)))
      (fill up (branch s c' (branch s c a x b) y d)) := by
  obtain ⟨L', heq, hzip, -, hout⟩ := rotate_zip h
  refine ⟨L', heq, zip_fill.mp hzip, toList_fill_congr (toList_rotate s c c' c c' a b d x y).symm, ?_⟩
  intro n hn
  exact hout n fun hmem => hn (mem_fill.mpr hmem)

end Color

end Gandr.RbTree

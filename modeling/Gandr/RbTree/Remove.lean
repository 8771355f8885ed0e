import Gandr.RbTree.Insert

/-! `RB_REMOVE`: unlinking a node, putting its successor in its place, and the
loop that restores the colors. -/

namespace Gandr.RbTree

open RedBlack ColorTree Links

variable {L L' : Links} {up : List (Frame ℕ)} {s : Side} {c c' : Color} {f : Frame ℕ}
  {a b t : ColorTree ℕ} {x y p k m n : ℕ}

section RemoveColor

theorem isBlack_iff (h : L.Holds p t) : IsBlack L t.root ↔ t.color = .black := by
  rcases eq_or_ne t nil with rfl | hnil
  · simp [IsBlack, ColorTree.root, ColorTree.color]
  · have hroot : t.root ≠ 0 := fun h0 => hnil (h.root_eq_zero.mp h0)
    simp [IsBlack, hroot, h.color_root hroot]

theorem root_fill_mem : (fill (f :: up) t).root ∈ keys (f :: up) := by
  induction up generalizing f t with
  | nil => simp [fill, Frame.fill, keys]
  | cons g up ih =>
    rw [fill, keys]
    exact List.mem_cons_of_mem _ (List.mem_append_right _ ih)

/-- Below a frame there is not the root. -/
theorem Zip.root_ne_root (h : L.Zip (f :: up) t) : t.root ≠ L.root := by
  rw [Zip.root_eq h]
  intro heq
  have hmem : (fill (f :: up) t).root ∈ keys (f :: up) := root_fill_mem
  rw [← heq] at hmem
  have hne : t ≠ nil := by
    rintro rfl
    exact h.above.ne_zero hmem rfl
  exact (List.nodup_append.mp h.nodup).2.2 _ (root_mem hne) _ hmem rfl

/-- A tree that stands where one more black node on every way down is due. -/
def Short (t : ColorTree ℕ) (n : ℕ) : Prop :=
  (t.color = .black ∧ t.Balanced n) ∨ (t.color = .red ∧ t.blacken.Balanced (n + 1))

/-- The part of a round after the sibling is made black. -/
def removeRest (fuel : ℕ) (s : Side) (h : Links) (parent : ℕ) : Option Links :=
  let tmp := h.child s.other parent
  if tmp = 0 then none
  else if IsBlack h (h.child .left tmp) ∧ IsBlack h (h.child .right tmp) then
    let h := h.setColor tmp .red
    rbRemoveColor fuel h (h.parent parent) parent
  else if IsBlack h (h.child s.other tmp) then
    let near := h.child s tmp
    let h := if near ≠ 0 then h.setColor near .black else h
    rbRotate s.other (h.setColor tmp .red) tmp >>= fun h =>
      let tmp := h.child s.other parent
      if tmp = 0 then none else removeRotate s h parent tmp
  else removeRotate s h parent tmp

theorem rbRemoveColor_round (fuel : ℕ) (h : L.Zip (f :: up) t) (ht : t.color = .black)
    (hS : f.sibling ≠ nil) : rbRemoveColor (fuel + 1) L f.key t.root =
      (if L.color f.sibling.root = .red then
        rbRotate f.side (rbSetBlackRed L f.sibling.root f.key) f.key else some L) >>= fun h =>
          removeRest fuel f.side h f.key := by
  obtain ⟨f₀, -, -, -, f₄⟩ := Zip.frame h
  have hside := Zip.side_eq h (Zip.root_ne h (.inr hS))
  have hroot : f.sibling.root ≠ 0 := fun h0 => hS ((Zip.sibling h).root_eq_zero.mp h0)
  rw [rbRemoveColor]
  dsimp only
  rw [if_pos ⟨(isBlack_iff h.tree).mpr ht, Zip.root_ne_root h⟩, if_neg f₀, hside, f₄, if_neg hroot]
  split_ifs <;> rfl

/-- The loop ends at a red node, which becomes black. -/
theorem rbRemoveColor_red (fuel : ℕ) (h : L.Zip up t) (ht : t.color = .red)
    (bt : t.blacken.Balanced n) (hup : Supports up n) : ∃ L' t', rbRemoveColor (fuel + 1) L (top up) t.root = some L' ∧
      Becomes L L' (fill up t) t' ∧ t'.IsRedBlack := by
  have hnil : t ≠ nil := by
    rintro rfl
    cases ht
  obtain ⟨c, a, x, b, rfl⟩ := exists_branch .left hnil
  obtain ⟨x₀, x₁, -, -, -⟩ := Zip.fields h
  rw [blacken_branch] at bt
  refine ⟨_, _, ?_, setColor_zip h .black, isRedBlack_fill.mpr ⟨n, hup, bt, by simp⟩⟩
  rw [rbRemoveColor, if_neg ?_, root_branch, if_pos x₀]
  rintro ⟨hblack, -⟩
  rw [isBlack_iff h.tree, ht] at hblack
  cases hblack

/-- The last rotation: the sibling has a red child on the far side. -/
theorem removeRotate_zip {S₁ S₂ : ColorTree ℕ} (h : L.Zip up (branch s c t p (branch s .black S₁ k S₂)))
    (hred : S₂.color = .red)
    (hrb : (fill up (branch s c (branch s .black t p S₁) k S₂.blacken)).IsRedBlack) :
    ∃ L', removeRotate s L p k = some L' ∧
      Becomes L L' (fill up (branch s c t p (branch s .black S₁ k S₂)))
        (fill up (branch s c (branch s .black t p S₁) k S₂.blacken)) := by
  have hnil : S₂ ≠ nil := by
    rintro rfl
    cases hred
  obtain ⟨c₂, A, m, B, rfl⟩ := exists_branch s hnil
  rw [blacken_branch] at hrb ⊢
  obtain ⟨-, p₁, -, -, -⟩ := Zip.fields h
  have h₀ : L.Zip (⟨s.other, c, p, t⟩ :: up) (branch s .black S₁ k (branch s c₂ A m B)) := by
    rw [zip_cons, Frame.fill, branch_other]
    exact h
  obtain ⟨-, -, -, -, k₄⟩ := Zip.fields h₀
  have h₁ := setColor_zip h₀ c
  have hz₁ : (L.setColor k c).Zip up (branch s.other c (branch s c S₁ k (branch s c₂ A m B)) p t) :=
    zip_fill.mpr h₁.zip
  have h₂ := setColor_zip hz₁ .black
  have hz₂ : ((L.setColor k c).setColor p .black).Zip
      (⟨s.other, c, k, S₁⟩ :: ⟨s.other, .black, p, t⟩ :: up) (branch s c₂ A m B) := by
    rw [zip_fill]
    simp only [fill, Frame.fill, branch_other] at h₂ ⊢
    exact h₂.zip
  have h₃ := setColor_zip hz₂ .black
  simp only [fill, Frame.fill, branch_other] at h₁ h₂ h₃
  obtain ⟨L', heq, h₄⟩ := rotate_becomes (zip_fill.mpr h₃.zip)
  refine ⟨L', ?_, ((h₁.trans h₂).trans h₃).trans h₄⟩
  have hm : m ≠ 0 := h₀.tree.ne_zero (mem_branch.mpr (.inr (.inr (mem_branch.mpr (.inr (.inl rfl))))))
  have hroot : L'.root ≠ 0 := by
    rw [Zip.root_eq h₄.zip, fill]
    exact fun h0 => fill_ne_nil branch_ne_nil (h₄.zip.tree.root_eq_zero.mp h0)
  rw [removeRotate, p₁]
  simp only [child_setColor, k₄, root_branch, ne_eq, hm, not_false_eq_true, if_true]
  rw [heq, Option.map_some, if_pos hroot,
    setColor_root (zip_fill.mpr h₄.zip) hrb (fill_ne_nil branch_ne_nil)]

/-- What is left of a round below a black sibling: both its children are black
and the round ends with the parent, or rotations end the loop. -/
theorem removeRest_zip (fuel : ℕ) {S₁ S₂ : ColorTree ℕ}
    (h : L.Zip up (branch s c t p (branch s .black S₁ k S₂))) (bt : t.Balanced n)
    (ct : t.color = .black) (b₁ : S₁.Balanced n) (b₂ : S₂.Balanced n)
    (hup : (c = .black ∧ Supports up (n + 2)) ∨
      (c = .red ∧ above up = .black ∧ Supports up (n + 1))) :
    (S₁.color = .black ∧ S₂.color = .black ∧
      removeRest fuel s L p = rbRemoveColor fuel (L.setColor k .red) (top up) p ∧
      Becomes L (L.setColor k .red) (fill up (branch s c t p (branch s .black S₁ k S₂)))
        (fill up (branch s c t p (branch s .red S₁ k S₂)))) ∨
    ∃ L' t', removeRest fuel s L p = some L' ∧
      Becomes L L' (fill up (branch s c t p (branch s .black S₁ k S₂))) t' ∧ t'.IsRedBlack := by
  have h₀ : L.Zip (⟨s.other, c, p, t⟩ :: up) (branch s .black S₁ k S₂) := by
    rw [zip_cons, Frame.fill, branch_other]
    exact h
  obtain ⟨-, -, p₂, -, p₄⟩ := Zip.fields h
  rw [root_branch] at p₄
  obtain ⟨k₀, -, -, k₃, k₄⟩ := Zip.fields h₀
  obtain ⟨-, -, -, -, -, hS₁, hS₂⟩ := holds_branch.mp h₀.tree
  -- a rotation with the red child on the far side ends the loop
  have hlast : ∀ {M : Links} {T₁ T₂ : ColorTree ℕ} {j : ℕ},
      M.Zip up (branch s c t p (branch s .black T₁ j T₂)) → T₁.Balanced n → T₂.color = .red →
      T₂.blacken.Balanced (n + 1) → ∃ L' t', removeRotate s M p j = some L' ∧
        Becomes M L' (fill up (branch s c t p (branch s .black T₁ j T₂))) t' ∧ t'.IsRedBlack := by
    intro M T₁ T₂ j hM bT₁ cT₂ bT₂
    have bT := balanced_black (s := s) (a := p).mpr ⟨n, rfl, bt, bT₁⟩
    have hrb : (fill up (branch s c (branch s .black t p T₁) j T₂.blacken)).IsRedBlack := by
      rw [isRedBlack_fill]
      rcases hup with ⟨rfl, hup⟩ | ⟨rfl, hab, hup⟩
      · exact ⟨n + 2, hup, balanced_black.mpr ⟨n + 1, rfl, bT, bT₂⟩, by simp⟩
      · refine ⟨n + 1, hup, balanced_red.mpr ⟨⟨color_branch, ?_⟩, bT, bT₂⟩, fun _ => hab⟩
        cases T₂ <;> rfl
    obtain ⟨L', heq, hbec⟩ := removeRotate_zip hM cT₂ hrb
    exact ⟨L', _, heq, hbec, hrb⟩
  have hblack : IsBlack L (L.child .left k) ∧ IsBlack L (L.child .right k) ↔
      S₁.color = .black ∧ S₂.color = .black := by
    rw [← isBlack_iff hS₁, ← isBlack_iff hS₂, ← k₃, ← k₄]
    cases s
    · rfl
    · exact and_comm
  rw [removeRest, p₄]
  dsimp only
  rw [if_neg k₀]
  by_cases hboth : S₁.color = .black ∧ S₂.color = .black
  · refine .inl ⟨hboth.1, hboth.2, ?_, ?_⟩
    · rw [if_pos (hblack.mpr hboth), parent_setColor, p₂]
    · have := setColor_zip h₀ .red
      simp only [fill, Frame.fill, branch_other] at this
      exact this
  · rw [if_neg (mt hblack.mp hboth), k₄]
    refine .inr ?_
    rcases eq_or_ne S₂.color .black with c₂ | c₂
    · -- the red child is on the near side and is first rotated to the far one
      have c₁ : S₁.color = .red := Color.ne_black.mp fun c₁ => hboth ⟨c₁, c₂⟩
      have hnil : S₁ ≠ nil := by
        rintro rfl
        cases c₁
      obtain ⟨d, A, m, B, rfl⟩ := exists_branch s hnil
      obtain rfl : d = .red := by simpa using c₁
      obtain ⟨⟨cA, cB⟩, bA, bB⟩ := balanced_red.mp b₁
      rw [root_branch] at k₃
      have m₀ : m ≠ 0 := hS₁.ne_zero (mem_branch.mpr (.inr (.inl rfl)))
      obtain ⟨M, heq, hbec⟩ := setBlackRed_rotate h₀
      simp only [fill, Frame.fill, branch_other] at hbec
      have hM := zip_fill.mpr hbec.zip
      obtain ⟨-, -, -, -, hp⟩ := Zip.fields hM
      rw [root_branch] at hp
      obtain ⟨L', t', heq', hbec', hrb⟩ := hlast hM bA (by simp)
        (by rw [blacken_branch]; exact balanced_black.mpr ⟨n, rfl, bB, b₂⟩)
      refine ⟨L', t', ?_, hbec.trans hbec', hrb⟩
      rw [if_pos ((isBlack_iff hS₂).mpr c₂), k₃, if_pos m₀]
      rw [rbSetBlackRed] at heq
      rw [heq]
      change (if M.child s.other p = 0 then none else removeRotate s M p (M.child s.other p)) = some L'
      rw [hp, if_neg m₀, heq']
    · rw [if_neg (mt (isBlack_iff hS₂).mp c₂)]
      refine hlast h b₁ (Color.ne_black.mp c₂) ?_
      have hnil : S₂ ≠ nil := by
        rintro rfl
        exact c₂ rfl
      obtain ⟨d, A, m, B, rfl⟩ := exists_branch s hnil
      obtain rfl : d = .red := by simpa using Color.ne_black.mp c₂
      rw [blacken_branch]
      exact balanced_black.mpr ⟨n, rfl, (balanced_red.mp b₂).2.1, (balanced_red.mp b₂).2.2⟩

/-- A black sibling that became red leaves the parent short. -/
theorem short_branch {S₁ S₂ : ColorTree ℕ} (bt : t.Balanced n) (ct : t.color = .black)
    (b₁ : S₁.Balanced n) (c₁ : S₁.color = .black) (b₂ : S₂.Balanced n) (c₂ : S₂.color = .black) :
    (branch s c t p (branch s .red S₁ k S₂)).blacken.Balanced (n + 1) := by
  rw [blacken_branch]
  exact balanced_black.mpr ⟨n, rfl, bt, balanced_red.mpr ⟨⟨c₁, c₂⟩, b₁, b₂⟩⟩

/-- The loop of `RB_REMOVE_COLOR` on a tree in a hole that is one black node
short. -/
theorem rbRemoveColor_zip (fuel : ℕ) (h : L.Zip up t) (ht : Short t n) (hup : Supports up (n + 1))
    (hfuel : up.length + 1 ≤ fuel) :
    ∃ L' t', rbRemoveColor fuel L (top up) t.root = some L' ∧ Becomes L L' (fill up t) t' ∧
      t'.IsRedBlack := by
  induction fuel generalizing L up t n with
  | zero => omega
  | succ fuel ih =>
    rcases ht with ⟨ct, bt⟩ | ⟨ct, bt⟩
    swap
    · exact rbRemoveColor_red fuel h ct bt hup
    cases up with
    | nil =>
      refine ⟨L, t, ?_, Becomes.refl h, ct, n, bt⟩
      rw [rbRemoveColor, if_neg fun hcond => hcond.2 (Zip.root_eq h).symm]
      split_ifs with hroot
      · rw [setColor_eq_self ((h.tree.color_root hroot).trans ct)]
      · rfl
    | cons f up =>
      obtain ⟨fs, fc, p, S⟩ := f
      obtain ⟨bS, hcolor⟩ := hup
      have hS : S ≠ nil := by
        rintro rfl
        cases bS
      obtain ⟨d, S₁, k, S₂, rfl⟩ := exists_branch fs hS
      have hround := rbRemoveColor_round fuel h ct hS
      simp only [List.length_cons] at hfuel
      have h₁ : L.Zip up (branch fs fc t p (branch fs d S₁ k S₂)) := zip_cons.mp h
      have hsib : L.Holds p (branch fs d S₁ k S₂) := Zip.sibling h
      obtain ⟨-, k₁, -⟩ := holds_branch.mp hsib
      simp only [root_branch, k₁] at hround
      cases d with
      | black =>
        obtain ⟨m, hm, b₁, b₂⟩ := balanced_black.mp bS
        obtain rfl : n = m := by omega
        have hup : (fc = .black ∧ Supports up (n + 2)) ∨
            (fc = .red ∧ above up = .black ∧ Supports up (n + 1)) :=
          hcolor.imp id fun hred => ⟨hred.1, hred.2.2⟩
        rcases removeRest_zip fuel h₁ bt ct b₁ b₂ hup with
          ⟨c₁, c₂, heq, hbec⟩ | ⟨L', t', heq, hbec, hrb⟩
        · -- the round goes on with the parent, short in its turn
          have hb := short_branch (s := fs) (c := fc) (p := p) (k := k) bt ct b₁ c₁ b₂ c₂
          have hnext : ∃ j, Short (branch fs fc t p (branch fs .red S₁ k S₂)) j ∧
              Supports up (j + 1) := by
            rcases hup with ⟨rfl, hup⟩ | ⟨rfl, -, hup⟩
            · exact ⟨n + 1, .inl ⟨color_branch, by rwa [blacken_branch] at hb⟩, hup⟩
            · exact ⟨n, .inr ⟨color_branch, hb⟩, hup⟩
          obtain ⟨j, hshort, hsup⟩ := hnext
          obtain ⟨L', t', heq', hbec', hrb⟩ := ih (zip_fill.mpr hbec.zip) hshort hsup (by omega)
          rw [root_branch] at heq'
          refine ⟨L', t', ?_, hbec.trans hbec', hrb⟩
          exact hround.trans (heq.trans heq')
        · exact ⟨L', t', hround.trans heq, hbec, hrb⟩
      | red =>
        -- a rotation gives a black sibling, below a red parent
        obtain ⟨⟨c₁, c₂⟩, b₁, b₂⟩ := balanced_red.mp bS
        obtain ⟨rfl, hup⟩ : fc = .black ∧ Supports up (n + 2) := by
          rcases hcolor with hblack | ⟨-, hblack, -⟩
          · exact hblack
          · simp at hblack
        have h₂ : L.Zip up (branch fs.other .black (branch fs.other .red S₂ k S₁) p t) := by
          rw [branch_other, branch_other]
          exact h₁
        obtain ⟨M, hM, hbec₀⟩ := setBlackRed_rotate h₂
        simp only [branch_other, Side.other_other] at hM hbec₀
        have hS₁ : S₁ ≠ nil := by
          rintro rfl
          cases b₁
        obtain ⟨d, T₁, j, T₂, rfl⟩ := exists_branch fs hS₁
        obtain rfl : d = .black := by simpa using c₁
        obtain ⟨m, hm, bT₁, bT₂⟩ := balanced_black.mp b₁
        obtain rfl : n = m := by omega
        have h₃ : M.Zip (⟨fs, .black, k, S₂⟩ :: up) (branch fs .red t p (branch fs .black T₁ j T₂)) :=
          zip_fill.mpr hbec₀.zip
        have hup' : Supports (⟨fs, .black, k, S₂⟩ :: up) (n + 1) := ⟨b₂, .inl ⟨rfl, hup⟩⟩
        rw [if_pos rfl, hM] at hround
        obtain ⟨fuel, rfl⟩ : ∃ i, fuel = i + 1 := ⟨fuel - 1, by omega⟩
        rcases removeRest_zip (fuel + 1) h₃ bt ct bT₁ bT₂ (.inr ⟨rfl, rfl, hup'⟩) with
          ⟨cT₁, cT₂, heq, hbec⟩ | ⟨L', t', heq, hbec, hrb⟩
        · have hb := short_branch (s := fs) (c := .red) (p := p) (k := j) bt ct bT₁ cT₁ bT₂ cT₂
          obtain ⟨L', t', heq', hbec', hrb⟩ := rbRemoveColor_red fuel
            (zip_fill.mpr hbec.zip) color_branch hb hup'
          rw [root_branch] at heq'
          refine ⟨L', t', ?_, hbec₀.trans (hbec.trans hbec'), hrb⟩
          exact hround.trans (heq.trans heq')
        · exact ⟨L', t', hround.trans heq, hbec₀.trans hbec, hrb⟩

end RemoveColor

section Unlink

/-- A node with at most one child is taken out, and its child put in its place. -/
theorem unlink_zip (h : L.Zip up (branch s c nil x t)) : (unlink L x t.root).Zip up t ∧
    ∀ n ∉ t.toList ++ keys up, Same L (unlink L x t.root) n := by
  have hn : (x :: (t.toList ++ keys up)).Nodup := by
    refine List.Perm.nodup ?_ h.nodup
    exact (perm_branch s c nil t x).append_right (keys up)
  obtain ⟨hup, ht, -⟩ := h
  rw [root_branch] at hup
  obtain ⟨x₀, -, x₂, -, -, -, ht⟩ := holds_branch.mp ht
  simp only [List.nodup_cons, List.mem_append, not_or, List.nodup_append] at hn
  obtain ⟨⟨hxt, hxu⟩, nt, nu, htu⟩ := hn
  obtain ⟨M, hM⟩ : ∃ M, M = if t.root ≠ 0 then L.setParent t.root (top up) else L := ⟨_, rfl⟩
  have hmem : t.root ≠ 0 → t.root ∈ t.toList := fun h0 => root_mem fun hnil => h0 (by rw [hnil]; rfl)
  have hMroot : M.root = L.root := by
    rw [hM]
    split_ifs <;> rfl
  have hMbelow : ∀ m, SameBelow L M m := by
    intro m
    rw [hM]
    split_ifs <;> exact ⟨rfl, fun _ => rfl⟩
  have hMparent : ∀ m, (m ∈ t.toList → m ≠ t.root) → M.parent m = L.parent m := by
    intro m hm
    rw [hM]
    split_ifs with hroot
    · have : m ≠ t.root := fun he => hm (he ▸ hmem hroot) he
      simp [this]
    · rfl
  have hMup : M.HoldsUp up x := hup.congr hMroot
    fun m hm => ⟨hMbelow m, hMparent m fun hmt => absurd rfl (htu m hmt m hm)⟩
  have heq : unlink L x t.root = setHole M up t.root := by
    rw [unlink, x₂, ← replaceChild_eq hMup x₀ hxu, hM]
  have hout : ∀ m ∉ keys up, Same M (setHole M up t.root) m := fun m hm => same_setHole hm
  rw [heq]
  refine ⟨⟨HoldsUp.setHole hMup nu, ?_, List.nodup_append.mpr ⟨nt, nu, htu⟩⟩, ?_⟩
  · have hkeys : ∀ m ∈ t.toList, m ∉ keys up := fun m hm hmu => htu m hm m hmu rfl
    refine ht.move nt (fun m hm => ?_) (fun m hm hroot => ?_) fun hroot => ?_
    · have h₁ := hout m (hkeys m hm)
      exact ⟨h₁.color.trans (hMbelow m).color, fun s => (h₁.child s).trans ((hMbelow m).child s)⟩
    · rw [(hout m (hkeys m hm)).parent, hMparent m fun _ => hroot]
    · rw [(hout t.root (hkeys _ (hmem hroot))).parent, hM, if_pos hroot]
      simp
  · intro m hm
    rw [List.mem_append, not_or] at hm
    refine Same.trans ⟨hMbelow m, hMparent m fun hmt => absurd hmt hm.1⟩ (hout m hm.2)

/-- The way down on one side ends at a node without a child there. -/
theorem descend_zip (s : Side) (fuel : ℕ) (h : L.Zip up t) (ht : t ≠ nil) (hfuel : t.depth ≤ fuel) :
    ∃ mid c y b, descend s L fuel t.root = some y ∧ t = fill mid (branch s c nil y b) ∧
      ∀ f ∈ mid, f.side = s := by
  induction fuel generalizing up t with
  | zero =>
    cases t with
    | nil => exact absurd rfl ht
    | node => simp [depth] at hfuel
  | succ fuel ih =>
    obtain ⟨c, a, x, b, rfl⟩ := exists_branch s ht
    obtain ⟨-, -, -, x₃, -⟩ := Zip.fields h
    have ha : L.Zip (⟨s, c, x, b⟩ :: up) a := zip_cons.mpr h
    rw [depth_branch] at hfuel
    rw [root_branch, descend, x₃]
    rcases eq_or_ne a nil with rfl | hnil
    · exact ⟨[], c, x, b, if_neg (by simp [ColorTree.root]), rfl, by simp⟩
    · obtain ⟨mid, c', y, b', heq, rfl, hside⟩ := ih ha hnil (by omega)
      refine ⟨mid ++ [⟨s, c, x, b⟩], c', y, b', ?_, ?_, ?_⟩
      · rw [if_pos fun h0 => hnil (ha.tree.root_eq_zero.mp h0), heq]
      · rw [fill_append]
        rfl
      · simpa [or_imp, forall_and] using hside

/-- The links of `y` and the one above become those of a node with the children
`l` and `r` in the hole. -/
def adopt (L : Links) (up : List (Frame ℕ)) (y : ℕ) (c : Color) (l r : ColorTree ℕ) : Links :=
  setHole ((((L.setChild .left y l.root).setChild .right y r.root).setParent y (top up)).setColor
    y c) up y

theorem same_adopt {l r : ColorTree ℕ} (hn : n ∉ keys up) (hne : n ≠ y) :
    Same L (adopt L up y c l r) n := by
  refine Same.trans ⟨⟨?_, fun s => ?_⟩, ?_⟩ (same_setHole hn)
  · simp [hne]
  · simp [hne]
  · simp [hne]

theorem adopt_up {l r : ColorTree ℕ} (h : L.HoldsUp up x) (hy : y ∉ keys up) (hn : (keys up).Nodup) :
    (adopt L up y c l r).HoldsUp up y := by
  refine HoldsUp.setHole (x := x) (h.congr rfl fun m hm => ?_) hn
  have hne : m ≠ y := by
    rintro rfl
    exact hy hm
  exact ⟨⟨by simp [hne], fun s => by simp [hne]⟩, by simp [hne]⟩

theorem adopt_self {l r : ColorTree ℕ} (hy : y ∉ keys up) :
    (adopt L up y c l r).color y = c ∧ (adopt L up y c l r).parent y = top up ∧
    (adopt L up y c l r).child .left y = l.root ∧ (adopt L up y c l r).child .right y = r.root := by
  have h := same_setHole (L := (((L.setChild .left y l.root).setChild .right y r.root).setParent y
    (top up)).setColor y c) (y := y) hy
  refine ⟨h.color.trans ?_, h.parent.trans ?_, (h.child _).trans ?_, (h.child _).trans ?_⟩ <;> simp

/-- The children of a node link to `y`. -/
def handOver (L : Links) (l r : ColorTree ℕ) (y : ℕ) : Links :=
  if r.root ≠ 0 then (L.setParent l.root y).setParent r.root y else L.setParent l.root y

theorem handOver_root {l r : ColorTree ℕ} : (handOver L l r y).root = L.root := by
  unfold handOver
  split_ifs <;> rfl

theorem sameBelow_handOver {l r : ColorTree ℕ} : SameBelow L (handOver L l r y) n := by
  unfold handOver
  split_ifs <;> exact ⟨rfl, fun _ => rfl⟩

theorem parent_handOver {l r : ColorTree ℕ} : (handOver L l r y).parent n =
    if n = l.root ∨ (n = r.root ∧ r.root ≠ 0) then y else L.parent n := by
  unfold handOver
  by_cases hr : r.root = 0
  · simp [hr]
  · by_cases h₁ : n = r.root <;> by_cases h₂ : n = l.root <;> simp_all

theorem same_handOver {l r : ColorTree ℕ} (h₁ : n ≠ l.root) (h₂ : r.root ≠ 0 → n ≠ r.root) :
    Same L (handOver L l r y) n := by
  refine ⟨sameBelow_handOver, ?_⟩
  rw [parent_handOver, if_neg (not_or.mpr ⟨h₁, fun h => h₂ h.2 h.1⟩)]

theorem substitute_eq {l r : ColorTree ℕ} (h : L.Zip up (branch .left c l x r)) (hxy : x ≠ y)
    (hy : y ∉ keys up) : substitute L y x = handOver (adopt L up y c l r) l r y := by
  have hx : x ∉ keys up := by
    intro hmem
    have hin : x ∈ (branch .left c l x r).toList := mem_branch.mpr (.inr (.inl rfl))
    exact (List.nodup_append.mp h.nodup).2.2 x hin x hmem rfl
  obtain ⟨x₀, x₁, x₂, x₃, x₄, -, -⟩ := holds_branch.mp h.tree
  have hup := h.above
  rw [root_branch] at hup
  have hsame : ∀ m, m ≠ y → Same L ((((L.setChild .left y l.root).setChild .right y
      r.root).setParent y (top up)).setColor y c) m := by
    intro m hm
    exact ⟨⟨by simp [hm], fun s => by simp [hm]⟩, by simp [hm]⟩
  have hup' : ((((L.setChild .left y l.root).setChild .right y r.root).setParent y
      (top up)).setColor y c).HoldsUp up x :=
    hup.congr rfl fun m hm => hsame m fun he => hy (he ▸ hm)
  have h₁ := replaceChild_eq (y := y) hup' x₀ hx
  have h₂ : Same L (adopt L up y c l r) x := same_adopt hx hxy
  rw [substitute]
  simp only [x₁, x₂, x₃, show L.child .right x = r.root from x₄, color_setParent, color_setChild]
  rw [(hsame x hxy).parent, x₂, h₁]
  have hleft : (adopt L up y c l r).child .left x = l.root := (h₂.child _).trans x₃
  have hright : (adopt L up y c l r).child .right x = r.root := (h₂.child _).trans x₄
  rw [adopt] at hleft hright
  simp only [child_setParent, hleft, hright]
  rfl

/-- The node `y`, which is not in the tree, takes the place of `x`, whose left
child is not null. -/
theorem substitute_zip {l r : ColorTree ℕ} (h : L.Zip up (branch .left c l x r)) (hl : l ≠ nil)
    (hy : y ≠ 0) (hmem : y ∉ (branch .left c l x r).toList ++ keys up) :
    (substitute L y x).Zip up (branch .left c l y r) ∧
      ∀ n ∉ (branch .left c l y r).toList ++ keys up, Same L (substitute L y x) n := by
  have hn : (x :: (l.toList ++ (r.toList ++ keys up))).Nodup := by
    rw [← List.append_assoc]
    exact ((perm_branch .left c l r x).append_right (keys up)).nodup_iff.mp h.nodup
  rw [List.mem_append, mem_branch] at hmem
  simp only [not_or] at hmem
  obtain ⟨⟨hyl, hyx, hyr⟩, hyu⟩ := hmem
  have hn' : (y :: (l.toList ++ (r.toList ++ keys up))).Nodup := by
    rw [List.nodup_cons] at hn ⊢
    exact ⟨by simp [hyl, hyr, hyu], hn.2⟩
  rw [substitute_eq h (Ne.symm hyx) hyu]
  obtain ⟨hup, ht, -⟩ := h
  rw [root_branch] at hup
  obtain ⟨-, -, -, -, -, hl', hr'⟩ := holds_branch.mp ht
  simp only [List.nodup_cons, List.mem_append, not_or, List.nodup_append] at hn
  obtain ⟨-, nl, ⟨nr, nu, hru⟩, hlr⟩ := hn
  have hlmem := root_mem hl
  have hrmem : r.root ≠ 0 → r.root ∈ r.toList := fun h0 => root_mem fun hnil => h0 (by rw [hnil]; rfl)
  have hkeep : ∀ m, m ∉ l.toList → m ∉ r.toList →
      Same (adopt L up y c l r) (handOver (adopt L up y c l r) l r y) m := by
    intro m h₁ h₂
    exact same_handOver (fun he => h₁ (he ▸ hlmem)) fun h0 he => h₂ (he ▸ hrmem h0)
  have hmove : ∀ u : ColorTree ℕ, L.Holds x u → u.toList.Nodup →
      (∀ m ∈ u.toList, m ∉ keys up ∧ m ≠ y) →
      (∀ m ∈ u.toList, m ≠ u.root → m ≠ l.root ∧ (r.root ≠ 0 → m ≠ r.root)) →
      (u.root ≠ 0 → u.root = l.root ∨ u.root = r.root ∧ r.root ≠ 0) →
      (handOver (adopt L up y c l r) l r y).Holds y u := by
    intro u hu nu h₁ h₂ h₃
    refine hu.move nu (fun m hm => ?_) (fun m hm hne => ?_) fun h0 => ?_
    · have h₄ : Same L (adopt L up y c l r) m := same_adopt (h₁ m hm).1 (h₁ m hm).2
      have h₅ : SameBelow (adopt L up y c l r) (handOver (adopt L up y c l r) l r y) m :=
        sameBelow_handOver
      exact ⟨h₅.color.trans h₄.color, fun s => (h₅.child s).trans (h₄.child s)⟩
    · exact (same_handOver (h₂ m hm hne).1 (h₂ m hm hne).2).parent.trans
        (same_adopt (h₁ m hm).1 (h₁ m hm).2).parent
    · rw [parent_handOver, if_pos (h₃ h0)]
  refine ⟨⟨?_, ?_, ?_⟩, ?_⟩
  · rw [root_branch]
    refine (adopt_up hup hyu nu).congr handOver_root fun m hm => hkeep m ?_ ?_
    · exact fun hml => hlr m hml m (.inr hm) rfl
    · exact fun hmr => hru m hmr m hm rfl
  · have hyL := hkeep y hyl hyr
    obtain ⟨y₁, y₂, y₃, y₄⟩ := adopt_self (L := L) (c := c) (l := l) (r := r) hyu
    refine ⟨hy, hyL.color.trans y₁, hyL.parent.trans y₂, (hyL.child _).trans y₃,
      (hyL.child _).trans y₄, ?_, ?_⟩
    · refine hmove l hl' nl (fun m hm => ⟨fun hmu => ?_, fun he => hyl (he ▸ hm)⟩)
        (fun m hm hne => ⟨hne, fun h0 he => ?_⟩) fun _ => .inl rfl
      · exact hlr m hm m (.inr hmu) rfl
      · exact hlr m hm r.root (.inl (hrmem h0)) he
    · refine hmove r hr' nr (fun m hm => ⟨fun hmu => ?_, fun he => hyr (he ▸ hm)⟩)
        (fun m hm hne => ⟨fun he => ?_, fun _ => hne⟩) fun h0 => .inr ⟨rfl, h0⟩
      · exact hru m hm m hmu rfl
      · exact hlr l.root hlmem m (.inl hm) he.symm
  · refine ((perm_branch .left c l r y).append_right (keys up)).nodup_iff.mpr ?_
    rw [List.cons_append, List.append_assoc]
    exact hn'
  · intro m hm
    rw [List.mem_append, mem_branch] at hm
    simp only [not_or] at hm
    exact (same_adopt hm.2 hm.1.2.1).trans (hkeep m hm.1.1 hm.1.2.2)

end Unlink

/-- In place of the tree in the hole there was one with a root of color `c` and
this tree as its only child. -/
def Lacks (c : Color) (up : List (Frame ℕ)) (t : ColorTree ℕ) : Prop :=
  (c = .black ∧ ∃ n, Short t n ∧ Supports up (n + 1)) ∨
    (c = .red ∧ ∃ n, t.Balanced n ∧ t.color = .black ∧ Supports up n)

theorem short_of_balanced (h : t.Balanced n) : Short t n := by
  rcases eq_or_ne t.color .black with hc | hc
  · exact .inl ⟨hc, h⟩
  · have hred := Color.ne_black.mp hc
    cases t with
    | nil => exact absurd rfl hc
    | node c l a r =>
      obtain rfl : c = .red := hred
      exact .inr ⟨rfl, n, rfl, h.2.1, h.2.2⟩

theorem lacks_of_isRedBlack (h : (fill up (branch s c nil x t)).IsRedBlack) : Lacks c up t := by
  obtain ⟨n, hup, hb, -⟩ := isRedBlack_fill.mp h
  cases c with
  | black =>
    obtain ⟨m, rfl, -, ht⟩ := balanced_black.mp hb
    exact .inl ⟨rfl, m, short_of_balanced ht, hup⟩
  | red =>
    obtain ⟨⟨-, hc⟩, -, ht⟩ := balanced_red.mp hb
    exact .inr ⟨rfl, n, ht, hc, hup⟩

/-- The end of `RB_REMOVE`, where `parent` and `child` are known. -/
theorem restore_zip (fuel : ℕ) (h : L.Zip up t) (hlacks : Lacks c up t)
    (hfuel : up.length + 1 ≤ fuel) :
    ∃ L' t', (if c = .black then rbRemoveColor fuel L (top up) t.root else some L) = some L' ∧
      Becomes L L' (fill up t) t' ∧ t'.IsRedBlack := by
  rcases hlacks with ⟨rfl, n, hshort, hup⟩ | ⟨rfl, n, hb, hc, hup⟩
  · exact rbRemoveColor_zip fuel h hshort hup hfuel
  · refine ⟨L, _, rfl, Becomes.refl (zip_fill.mp h), isRedBlack_fill.mpr ⟨n, hup, hb, ?_⟩⟩
    simp [hc]

/-- `RB_REMOVE` of a node with at most one child. -/
theorem rbRemove_one (fuel : ℕ) (h : L.Zip up (branch s c nil x t))
    (hrb : (fill up (branch s c nil x t)).IsRedBlack) (hfuel : up.length + 1 ≤ fuel) :
    ∃ L' t', rbRemove fuel L x = some L' ∧ L'.Zip [] t' ∧ t'.IsRedBlack ∧
      t'.toList = (fill up t).toList ∧
      ∀ n ∉ (fill up (branch s c nil x t)).toList, Same L L' n := by
  obtain ⟨-, x₁, x₂, x₃, x₄⟩ := Zip.fields h
  replace x₃ : L.child s x = 0 := x₃
  obtain ⟨hzip, hout⟩ := unlink_zip h
  obtain ⟨L', t', heq, hbec, hrb'⟩ := restore_zip fuel hzip (lacks_of_isRedBlack hrb) hfuel
  refine ⟨L', t', ?_, hbec.zip, hrb', hbec.toList, fun n hn => ?_⟩
  · have hchild : (if L.child .left x = 0 then L.child .right x else L.child .left x) = t.root := by
      cases s with
      | left => rw [if_pos x₃, show L.child .right x = t.root from x₄]
      | right =>
        rw [show L.child .left x = t.root from x₄, show L.child .right x = 0 from x₃]
        split_ifs with h0
        · exact h0.symm
        · rfl
    have hcond : L.child .left x = 0 ∨ L.child .right x = 0 := by
      cases s
      · exact .inl x₃
      · exact .inr x₃
    rw [rbRemove, if_pos hcond]
    dsimp only
    rw [hchild, x₁, x₂]
    exact heq
  · rw [mem_fill] at hn
    have hn' : n ∉ t.toList ++ keys up := by
      intro hmem
      refine hn (List.mem_append.mpr ((List.mem_append.mp hmem).imp_left fun ht => ?_))
      exact mem_branch.mpr (.inr (.inr ht))
    exact (hout n hn').trans (hbec.outside n fun hmem => hn' (mem_fill.mp hmem))

/-- `RB_REMOVE` of a node with two children, whose place the next node takes. -/
theorem rbRemove_two (fuel : ℕ) {l r : ColorTree ℕ} (h : L.Zip up (branch .left c l x r))
    (hl : l ≠ nil) (hr : r ≠ nil) (hrb : (fill up (branch .left c l x r)).IsRedBlack)
    (hfuel : (fill up (branch .left c l x r)).depth ≤ fuel) :
    ∃ L' t', rbRemove fuel L x = some L' ∧ L'.Zip [] t' ∧ t'.IsRedBlack ∧
      t'.toList = front up ++ (l.toList ++ r.toList ++ back up) ∧
      ∀ n ∉ (fill up (branch .left c l x r)).toList, Same L L' n := by
  obtain ⟨x₀, -, -, x₃, x₄⟩ := Zip.fields h
  replace x₄ : L.child .right x = r.root := x₄
  have hzr : L.Zip (⟨.right, c, x, l⟩ :: up) r := zip_cons.mpr h
  have hdepth := length_add_depth_le up (branch .left c l x r)
  rw [depth_branch] at hdepth
  obtain ⟨mid, c', y, t, hdesc, rfl, hside⟩ := descend_zip .left fuel hzr hr (by omega)
  have hmid := length_add_depth_le mid (branch .left c' nil y t)
  rw [depth_branch] at hmid
  -- the next node is taken out
  have hzy := zip_append.mpr hzr
  obtain ⟨y₀, y₁, y₂, -, y₄⟩ := Zip.fields hzy
  replace y₄ : L.child .right y = t.root := y₄
  obtain ⟨hzt, hout⟩ := unlink_zip hzy
  have hnodup : (y :: (t.toList ++ keys (mid ++ ⟨.right, c, x, l⟩ :: up))).Nodup :=
    ((perm_branch .left c' nil t y).append_right _).nodup_iff.mp hzy.nodup
  have hy := (List.nodup_cons.mp hnodup).1
  have hysame := hout y hy
  -- and put in place of the old one
  have hzx : (unlink L y t.root).Zip up (branch .left c l x (fill mid t)) :=
    zip_cons.mp (zip_append.mp hzt)
  have hmem : ∀ n, n ∈ (branch .left c l x (fill mid t)).toList ++ keys up ↔
      n ∈ t.toList ++ keys (mid ++ ⟨.right, c, x, l⟩ :: up) := by
    intro n
    rw [← mem_fill, ← mem_fill, fill_append]
    rfl
  obtain ⟨hzy', hout'⟩ := substitute_zip hzx hl y₀ (mt (hmem y).mp hy)
  have hzt' : (substitute (unlink L y t.root) y x).Zip (mid ++ ⟨.right, c, y, l⟩ :: up) t :=
    zip_append.mpr (zip_cons.mpr hzy')
  have htop : (if (unlink L y t.root).parent y = x then y else L.parent y) =
      top (mid ++ ⟨.right, c, y, l⟩ :: up) := by
    rw [hysame.parent, y₂]
    cases mid with
    | nil => exact if_pos rfl
    | cons f mid =>
      refine if_neg fun he => ?_
      have hf := (List.nodup_append.mp (List.nodup_cons.mp hnodup).2).2.1
      rw [List.cons_append, keys, List.nodup_cons, List.mem_append, not_or] at hf
      have hmem : x ∈ keys (mid ++ ⟨.right, c, x, l⟩ :: up) :=
        key_mem_keys (f := ⟨.right, c, x, l⟩) (by simp)
      exact hf.1.2 (he ▸ hmem)
  have hlacks : Lacks c' (mid ++ ⟨.right, c, y, l⟩ :: up) t := by
    have hrb' : (fill (mid ++ ⟨.right, c, x, l⟩ :: up) (branch .left c' nil y t)).IsRedBlack := by
      rw [fill_append]
      exact hrb
    rcases lacks_of_isRedBlack hrb' with ⟨hc, n, hs, hup⟩ | ⟨hc, n, hb, ht, hup⟩
    · exact .inl ⟨hc, n, hs, hup.rekey⟩
    · exact .inr ⟨hc, n, hb, ht, hup.rekey⟩
  obtain ⟨L', t', heq, hbec, hrb'⟩ := restore_zip fuel hzt' hlacks (by
    simp only [List.length_append, List.length_cons]
    omega)
  refine ⟨L', t', ?_, hbec.zip, hrb', ?_, fun n hn => ?_⟩
  · have hcond : ¬(L.child .left x = 0 ∨ L.child .right x = 0) := by
      obtain ⟨-, -, -, -, -, hl', hr'⟩ := holds_branch.mp h.tree
      rw [x₃, x₄, hl'.root_eq_zero, hr'.root_eq_zero]
      exact not_or.mpr ⟨hl, hr⟩
    rw [rbRemove, if_neg hcond, x₄, hdesc]
    dsimp only [Option.bind_eq_bind, Option.bind_some]
    rw [y₄, y₁, htop]
    exact heq
  · have hmid : ∀ u, (fill mid u).toList = u.toList ++ ahead .right mid := by
      intro u
      have hwalk := walk_fill .right mid u
      rw [show ahead Side.right.other mid = [] from ahead_eq_nil hside] at hwalk
      exact hwalk
    rw [hbec.toList, fill_append, toList_fill, hmid, hmid]
    simp [branch, toList, front, back]
  · have hne : n ≠ y ∧ n ∉ t.toList ++ keys (mid ++ ⟨.right, c, x, l⟩ :: up) := by
      have heq : fill up (branch .left c l x (fill mid (branch .left c' nil y t))) =
          fill (mid ++ ⟨.right, c, x, l⟩ :: up) (branch .left c' nil y t) := by
        rw [fill_append]
        rfl
      rw [heq, mem_fill, ((perm_branch .left c' nil t y).append_right _).mem_iff] at hn
      exact not_or.mp (mt List.mem_cons.mpr hn)
    have hn' : n ∉ (branch .left c l y (fill mid t)).toList ++ keys up := by
      have := mt (hmem n).mp hne.2
      simp only [List.mem_append, mem_branch, not_or] at this ⊢
      exact ⟨⟨this.1.1, hne.1, this.1.2.2⟩, this.2⟩
    refine ((hout n hne.2).trans (hout' n hn')).trans (hbec.outside n ?_)
    rw [fill_append, fill]
    exact mt mem_fill.mp hn'

/-- `RB_REMOVE` takes a node out of a red-black tree. -/
theorem rbRemove_isTree {fuel old : ℕ} {l₁ l₂ : List ℕ} (h : IsTree L (l₁ ++ old :: l₂))
    (hfuel : 2 * Nat.log 2 ((l₁ ++ old :: l₂).length + 1) ≤ fuel) :
    ∃ L', rbRemove fuel L old = some L' ∧ IsTree L' (l₁ ++ l₂) ∧
      ∀ n ∉ l₁ ++ old :: l₂, Same L L' n := by
  obtain ⟨t, hzip, hrb, hlist⟩ := h
  have hdepth := hrb.depth_le
  rw [hlist] at hdepth
  obtain ⟨up, c, l, r, rfl⟩ := exists_fill (show old ∈ t.toList by simp [hlist])
  have hz := zip_fill.mpr hzip
  have hlen := length_add_depth_le up (node c l old r)
  rw [depth] at hlen
  have hnodup : ((front up ++ l.toList) ++ old :: (r.toList ++ back up)).Nodup := by
    have := hzip.nodup
    simpa [keys, toList_fill, toList] using this
  have heq : (front up ++ l.toList) ++ old :: (r.toList ++ back up) = l₁ ++ old :: l₂ := by
    simpa [toList_fill, toList] using hlist
  have hold := List.nodup_middle.mp hnodup
  rw [List.nodup_cons, List.mem_append, not_or] at hold
  obtain ⟨rfl, -, rfl⟩ := (List.append_cons_inj_of_notMem hold.1.1 hold.1.2).mp heq
  have hout : ∀ {L' : Links}, (∀ n ∉ (fill up (node c l old r)).toList, Same L L' n) →
      ∀ n ∉ front up ++ l.toList ++ old :: (r.toList ++ back up), Same L L' n := by
    intro L' hsame n hn
    exact hsame n (hlist ▸ hn)
  rcases eq_or_ne l nil with rfl | hl
  · obtain ⟨L', t', heq, hzip', hrb', hlist', hsame⟩ := rbRemove_one (s := .left) fuel hz hrb (by omega)
    refine ⟨L', heq, ⟨t', hzip', hrb', ?_⟩, hout hsame⟩
    simp [hlist', toList_fill, toList]
  rcases eq_or_ne r nil with rfl | hr
  · obtain ⟨L', t', heq, hzip', hrb', hlist', hsame⟩ := rbRemove_one (s := .right) fuel hz hrb (by omega)
    refine ⟨L', heq, ⟨t', hzip', hrb', ?_⟩, hout hsame⟩
    simp [hlist', toList_fill, toList]
  · obtain ⟨L', t', heq, hzip', hrb', hlist', hsame⟩ := rbRemove_two fuel hz hl hr hrb
      (show (fill up (node c l old r)).depth ≤ fuel by omega)
    refine ⟨L', heq, ⟨t', hzip', hrb', ?_⟩, hout hsame⟩
    simp [hlist']


end Gandr.RbTree

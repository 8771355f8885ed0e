import Gandr.RbTree.Rotate

/-! `RB_INSERT`: the search, the new leaf, and the loop that restores the colors. -/

namespace Gandr.RbTree

open RedBlack ColorTree Links

variable {L L' : Links} {up : List (Frame ℕ)} {s : Side} {c c' : Color} {f : Frame ℕ}
  {a b t : ColorTree ℕ} {x y p n : ℕ}

theorem Zip.fields (h : L.Zip up (branch s c a x b)) : x ≠ 0 ∧ L.color x = c ∧
    L.parent x = top up ∧ L.child s x = a.root ∧ L.child s.other x = b.root := by
  obtain ⟨h₀, h₁, h₂, h₃, h₄, -, -⟩ := holds_branch.mp h.tree
  exact ⟨h₀, h₁, h₂, h₃, h₄⟩

theorem Zip.frame (h : L.Zip (f :: up) t) : f.key ≠ 0 ∧ L.color f.key = f.color ∧
    L.parent f.key = top up ∧ L.child f.side f.key = t.root ∧
    L.child f.side.other f.key = f.sibling.root := Zip.fields (zip_cons.mp h)

theorem Zip.sibling (h : L.Zip (f :: up) t) : L.Holds f.key f.sibling := h.above.2.2.2.2.2.1

theorem Zip.parent_root (h : L.Zip up t) (ht : t.root ≠ 0) : L.parent t.root = top up := by
  cases t with
  | nil => exact absurd rfl ht
  | node c l a r => exact h.tree.2.2.1

/-- The two trees below a node are different, unless both are empty. -/
theorem Zip.root_ne (h : L.Zip (f :: up) t) (hne : t ≠ nil ∨ f.sibling ≠ nil) :
    t.root ≠ f.sibling.root := by
  intro heq
  have ht := h.tree.root_eq_zero
  have hs := (Zip.sibling h).root_eq_zero
  rcases eq_or_ne t nil with hnil | hnil
  · rw [heq, hs] at ht
    exact hne.elim (fun h => h hnil) fun h => h (ht.mpr hnil)
  · have hdis := (List.nodup_append.mp h.nodup).2.2
    have hsib : f.sibling ≠ nil := by
      intro hsnil
      exact hnil (ht.mp (heq.trans (hs.mpr hsnil)))
    refine hdis _ (root_mem hnil) _ ?_ heq
    rw [keys]
    exact List.mem_cons_of_mem _ (List.mem_append_left _ (root_mem hsib))

/-- The test of the left link of a node tells the side of its child. -/
theorem Zip.side_eq (h : L.Zip (f :: up) t) (hne : t.root ≠ f.sibling.root) :
    (if L.child .left f.key = t.root then Side.left else .right) = f.side := by
  obtain ⟨-, -, -, h₃, h₄⟩ := Zip.frame h
  cases hs : f.side with
  | left =>
    rw [hs] at h₃
    exact if_pos h₃
  | right =>
    rw [hs] at h₄
    exact if_neg fun he => hne (he.symm.trans h₄)

theorem Zip.root_eq (h : L.Zip up t) : L.root = (fill up t).root := (zip_fill.mp h).above

/-- Blackening the root of a red-black tree changes nothing. -/
theorem setColor_root (h : L.Zip up t) (hrb : (fill up t).IsRedBlack) (hne : fill up t ≠ nil) :
    L.setColor L.root .black = L := by
  have hz := zip_fill.mp h
  refine setColor_eq_self ?_
  rw [show L.root = _ from hz.above, hz.tree.color_root fun h0 => hne (hz.tree.root_eq_zero.mp h0)]
  exact hrb.1

theorem fill_ne_nil (h : t ≠ nil) : fill up t ≠ nil := by
  induction up generalizing t with
  | nil => exact h
  | cons f up ih =>
    refine ih ?_
    rw [Frame.fill]
    cases f.side <;> simp [branch]

section InsertColor

/-- The loop ends below a black node. -/
theorem rbInsertColor_black {fuel : ℕ} (h : L.Zip (f :: up) t) (ht : t ≠ nil)
    (hf : f.color = .black) (hrb : (fill (f :: up) t).IsRedBlack) :
    rbInsertColor (fuel + 1) L t.root = some L := by
  have hroot : t.root ≠ 0 := fun h0 => ht (h.tree.root_eq_zero.mp h0)
  obtain ⟨f₀, f₁, -, -, -⟩ := Zip.frame h
  rw [rbInsertColor]
  dsimp only
  rw [Zip.parent_root h hroot, if_neg ?_, setColor_root h hrb (fill_ne_nil ht)]
  rintro ⟨-, hred⟩
  rw [top, f₁, hf] at hred
  cases hred

/-- The last rotation: a red node `p` with a red child below the black `g`. -/
theorem setBlackRed_rotate {P Q G : ColorTree ℕ} {g : ℕ}
    (h : L.Zip up (branch s .black (branch s .red P p Q) g G)) :
    ∃ L', rbRotate s.other (rbSetBlackRed L p g) g = some L' ∧
      Becomes L L' (fill up (branch s .black (branch s .red P p Q) g G))
        (fill up (branch s .black P p (branch s .red Q g G))) := by
  have h₁ := setColor_zip (zip_cons (f := ⟨s, .black, g, G⟩).mpr h) .black
  have h₂ := setColor_zip (zip_fill.mpr h₁.zip : (L.setColor p .black).Zip up
    (branch s .black (branch s .black P p Q) g G)) .red
  have h₃ : ((L.setColor p .black).setColor g .red).Zip up
      (branch s.other .red G g (branch s.other .black Q p P)) := by
    rw [branch_other, branch_other]
    exact zip_fill.mpr h₂.zip
  obtain ⟨L', heq, h₄⟩ := rotate_becomes h₃
  refine ⟨L', heq, (h₁.trans h₂).trans ?_⟩
  rw [branch_other, branch_other, branch_other, branch_other] at h₄
  exact h₄

/-- Both children of a black node are red and exchange their color with it. -/
theorem setBlackRed_recolor {s₁ s₂ : Side} {X Y U V : ColorTree ℕ} {g u : ℕ}
    (h : L.Zip up (branch s .black (branch s₁ .red X p Y) g (branch s₂ .red U u V))) :
    Becomes L (rbSetBlackRed (L.setColor u .black) p g)
      (fill up (branch s .black (branch s₁ .red X p Y) g (branch s₂ .red U u V)))
      (fill up (branch s .red (branch s₁ .black X p Y) g (branch s₂ .black U u V))) := by
  have h₁ := setColor_zip (zip_cons (f := ⟨s.other, .black, g, branch s₁ .red X p Y⟩).mpr
    (by rw [Frame.fill, branch_other]; exact h)) .black
  simp only [fill, Frame.fill, branch_other] at h₁
  have h₂ := setColor_zip (zip_cons (f := ⟨s, .black, g, branch s₂ .black U u V⟩).mpr
    (zip_fill.mpr h₁.zip)) .black
  have h₃ := setColor_zip (zip_fill.mpr h₂.zip : ((L.setColor u .black).setColor p .black).Zip up
    (branch s .black (branch s₁ .black X p Y) g (branch s₂ .black U u V))) .red
  exact (h₁.trans h₂).trans h₃

/-- One round of the loop below a red node. -/
theorem rbInsertColor_red (fuel : ℕ) {g : Frame ℕ} (h : L.Zip (f :: g :: up) t) (ht : t ≠ nil)
    (hf : f.color = .red) : rbInsertColor (fuel + 1) L t.root =
      if g.sibling.root ≠ 0 ∧ L.color g.sibling.root = .red then
        rbInsertColor fuel (rbSetBlackRed (L.setColor g.sibling.root .black) f.key g.key) g.key
      else if L.child g.side.other f.key = t.root then
        rbRotate g.side L f.key >>= fun h =>
          rbRotate g.side.other (rbSetBlackRed h t.root g.key) g.key >>= fun h =>
            rbInsertColor fuel h f.key
      else
        rbRotate g.side.other (rbSetBlackRed L f.key g.key) g.key >>= fun h =>
          rbInsertColor fuel h t.root := by
  have hroot : t.root ≠ 0 := fun h0 => ht (h.tree.root_eq_zero.mp h0)
  obtain ⟨f₀, f₁, f₂, -, -⟩ := Zip.frame h
  have hg := zip_cons.mp h
  obtain ⟨g₀, -, -, -, g₄⟩ := Zip.frame hg
  have hfill : (f.fill t).root = f.key := root_branch
  have hside := Zip.side_eq hg (Zip.root_ne hg (.inl branch_ne_nil))
  rw [hfill] at hside
  rw [rbInsertColor]
  dsimp only
  rw [Zip.parent_root h hroot, top, if_pos ⟨f₀, f₁.trans hf⟩, f₂, top, if_neg g₀]
  simp only [eq_comm (a := f.key)]
  rw [hside, g₄]

/-- Below a red node and its black parent whose other child is black too, one
or two rotations end the loop. -/
theorem rbInsertColor_rotate {fuel m : ℕ} {g : Frame ℕ} (h : L.Zip (f :: g :: up) t)
    (hred : t.color = .red) (ht : t.Balanced m) (hf : f.color = .red) (hg : g.color = .black)
    (hsib : f.sibling.Balanced m) (csib : f.sibling.color = .black)
    (hunc : g.sibling.Balanced m) (cunc : g.sibling.color = .black) (hup : Supports up (m + 1)) :
    ∃ L' t', rbInsertColor (fuel + 2) L t.root = some L' ∧
      Becomes L L' (fill (f :: g :: up) t) t' ∧ t'.IsRedBlack := by
  have hnil : t ≠ nil := by
    rintro rfl
    cases hred
  obtain ⟨fs, fc, p, F⟩ := f
  obtain ⟨gs, gc, q, G⟩ := g
  obtain rfl : fc = .red := hf
  obtain rfl : gc = .black := hg
  obtain ⟨-, -, -, f₃, f₄⟩ := Zip.frame h
  have hstep := rbInsertColor_red (fuel + 1) h hnil rfl
  rw [if_neg ?_] at hstep
  swap
  · rintro ⟨hroot, hcolor⟩
    have hG : L.Holds q G := Zip.sibling (zip_cons.mp h)
    rw [hG.color_root hroot, cunc] at hcolor
    cases hcolor
  -- what the last rotation leaves is red-black, and the loop ends there
  have hlast : ∀ {M : Links} {P Q : ColorTree ℕ} {k : ℕ},
      M.Zip up (branch gs .black (branch gs .red P k Q) q G) → P ≠ nil → P.Balanced m →
      Q.Balanced m → Q.color = .black → ∃ L' t',
        (rbRotate gs.other (rbSetBlackRed M k q) q >>= fun h => rbInsertColor (fuel + 1) h P.root) =
          some L' ∧
        Becomes M L' (fill up (branch gs .black (branch gs .red P k Q) q G)) t' ∧
        t'.IsRedBlack := by
    intro M P Q k hM hP bP bQ cQ
    obtain ⟨L', heq, hbec⟩ := setBlackRed_rotate hM
    have hrb : (fill up (branch gs .black P k (branch gs .red Q q G))).IsRedBlack :=
      isRedBlack_fill.mpr ⟨m + 1, hup, balanced_black.mpr ⟨m, rfl, bP,
        balanced_red.mpr ⟨⟨cQ, cunc⟩, bQ, hunc⟩⟩, by simp⟩
    refine ⟨L', _, ?_, hbec, hrb⟩
    rw [heq]
    exact rbInsertColor_black (f := ⟨gs, .black, k, branch gs .red Q q G⟩)
      (zip_cons.mpr (zip_fill.mpr hbec.zip)) hP rfl hrb
  rcases eq_or_ne fs gs with rfl | hside
  · -- the outer child: one rotation
    obtain ⟨L', t', heq, hbec, hrb⟩ := hlast (zip_cons.mp (zip_cons.mp h)) hnil ht hsib csib
    refine ⟨L', t', ?_, hbec, hrb⟩
    rw [hstep, if_neg ?_]
    · exact heq
    · rw [show L.child fs.other p = F.root from f₄]
      exact Ne.symm (Zip.root_ne h (.inl hnil))
  · -- the inner child is first rotated outwards
    obtain rfl : fs = gs.other := by
      revert hside
      cases fs <;> cases gs <;> decide
    obtain ⟨c, A, x, B, rfl⟩ := exists_branch gs hnil
    obtain rfl : c = .red := by simpa using hred
    obtain ⟨⟨cA, cB⟩, bA, bB⟩ := balanced_red.mp ht
    have h₁ := zip_cons.mp h
    rw [Frame.fill, branch_other] at h₁
    obtain ⟨L₁, heq₁, hbec₁⟩ := rotate_becomes h₁
    obtain ⟨L', t', heq, hbec, hrb⟩ := hlast (zip_cons.mp (zip_fill.mpr hbec₁.zip))
      (by cases gs <;> simp [branch]) (balanced_red.mpr ⟨⟨csib, cA⟩, hsib, bA⟩) bB cB
    refine ⟨L', t', ?_, ?_, hrb⟩
    · rw [hstep, if_pos (by rw [root_branch]; exact f₃.trans root_branch), heq₁]
      rw [root_branch] at heq
      simpa using heq
    · have hfirst := hbec₁.trans hbec
      simp only [fill, Frame.fill, branch_other] at hfirst ⊢
      exact hfirst

/-- The loop of `RB_INSERT_COLOR` on a red node in a hole. -/
theorem rbInsertColor_zip (fuel : ℕ) {m : ℕ} (h : L.Zip up t) (hred : t.color = .red)
    (ht : t.Balanced m) (hup : Supports up m) (hfuel : up.length + 2 ≤ fuel) :
    ∃ L' t', rbInsertColor fuel L t.root = some L' ∧ Becomes L L' (fill up t) t' ∧
      t'.IsRedBlack := by
  induction fuel using Nat.strong_induction_on generalizing L up t m with
  | _ fuel ih =>
    obtain ⟨fuel, rfl⟩ : ∃ j, fuel = j + 2 := ⟨fuel - 2, by omega⟩
    have hnil : t ≠ nil := by
      rintro rfl
      cases hred
    cases up with
    | nil =>
      obtain ⟨c, a, x, b, rfl⟩ := exists_branch .left hnil
      obtain rfl : c = .red := by simpa using hred
      obtain ⟨-, ha, hb⟩ := balanced_red.mp ht
      refine ⟨_, _, ?_, setColor_zip h .black, ?_⟩
      · obtain ⟨-, -, h₂, -, -⟩ := Zip.fields h
        rw [rbInsertColor]
        dsimp only
        rw [root_branch, h₂, if_neg (by simp [top]), Zip.root_eq h, fill, root_branch]
      · exact ⟨color_branch, m + 1, balanced_black.mpr ⟨m, rfl, ha, hb⟩⟩
    | cons f up =>
      obtain ⟨hsib, ⟨hf, -⟩ | ⟨hf, csib, hab, hup'⟩⟩ := id hup
      · have hrb : (fill (f :: up) t).IsRedBlack := isRedBlack_fill.mpr ⟨m, hup, ht, fun _ => hf⟩
        exact ⟨L, _, rbInsertColor_black h hnil hf hrb, Becomes.refl (zip_fill.mp h), hrb⟩
      · cases up with
        | nil => cases hab
        | cons g up =>
          have hg : g.color = .black := hab
          obtain ⟨hunc, ⟨-, hup''⟩ | ⟨hg', -⟩⟩ := hup'
          · rcases eq_or_ne g.sibling.color .red with cunc | cunc
            · obtain ⟨fs, fc, p, F⟩ := f
              obtain ⟨gs, gc, q, G⟩ := g
              obtain rfl : fc = .red := hf
              obtain rfl : gc = .black := hg
              have hG : G ≠ nil := by
                rintro rfl
                cases cunc
              obtain ⟨c, U, u, V, rfl⟩ := exists_branch .left hG
              obtain rfl : c = .red := by simpa using cunc
              obtain ⟨-, bU, bV⟩ := balanced_red.mp (show (branch .left .red U u V).Balanced m from hunc)
              have h₁ : L.Zip up (branch gs .black (branch fs .red t p F) q
                (branch .left .red U u V)) := zip_cons.mp (zip_cons.mp h)
              have hbec := setBlackRed_recolor h₁
              have hu : L.Holds q (branch .left .red U u V) := Zip.sibling (zip_cons.mp h)
              obtain ⟨u₀, u₁, -⟩ := holds_branch.mp hu
              obtain ⟨L', t', heq, hbec', hrb⟩ := ih (fuel + 1) (by omega) (zip_fill.mpr hbec.zip)
                color_branch (balanced_red.mpr ⟨⟨color_branch, color_branch⟩,
                  balanced_black.mpr ⟨m, rfl, ht, hsib⟩, balanced_black.mpr ⟨m, rfl, bU, bV⟩⟩)
                hup'' (by simp only [List.length_cons] at hfuel; omega)
              refine ⟨L', t', ?_, hbec.trans hbec', hrb⟩
              rw [rbInsertColor_red _ h hnil rfl, if_pos (by rw [root_branch]; exact ⟨u₀, u₁⟩)]
              rw [root_branch] at heq ⊢
              exact heq
            · exact rbInsertColor_rotate h hred ht hf hg hsib csib hunc (Color.ne_red.mp cunc) hup''
          · rw [hg] at hg'
            cases hg'

end InsertColor

section Search

variable {cmp : ℕ → ℤ} {comp : ℤ} {l : List ℕ}

/-- The comparison is positive in front, negative behind and zero at most once
between. -/
def Cuts (cmp : ℕ → ℤ) (l : List ℕ) : Prop := l.Pairwise fun a b => cmp a ≤ 0 → cmp b < 0

/-- The hole where the search ends without a node of equal key. -/
structure Gap (L : Links) (cmp : ℕ → ℤ) (up : List (Frame ℕ)) (comp : ℤ) : Prop where
  zip : L.Zip up nil
  front : ∀ a ∈ front up, 0 < cmp a
  back : ∀ b ∈ back up, cmp b < 0
  side : ∀ f ∈ up.head?, comp < 0 ↔ f.side = .left

/-- The search loop from a node in a hole on. -/
theorem search_zip (fuel : ℕ) (h : L.Zip up t) (hcut : Cuts cmp (fill up t).toList)
    (hfront : ∀ a ∈ front up, 0 < cmp a) (hback : ∀ b ∈ back up, cmp b < 0)
    (hside : ∀ f ∈ up.head?, comp < 0 ↔ f.side = .left) (hfuel : t.depth ≤ fuel) :
    (∃ a ∈ t.toList, cmp a = 0 ∧ search cmp L fuel t.root (top up) comp = some (a, a, 0)) ∨
    ∃ up' comp', search cmp L fuel t.root (top up) comp = some (0, top up', comp') ∧
      Gap L cmp up' comp' ∧ fill up' nil = fill up t := by
  induction t generalizing up comp fuel with
  | nil =>
    refine .inr ⟨up, comp, ?_, ⟨h, hfront, hback, hside⟩, rfl⟩
    cases fuel <;> rfl
  | node c l a r hl hr =>
    obtain ⟨fuel, rfl⟩ : ∃ j, fuel = j + 1 := ⟨fuel - 1, by simp only [depth] at hfuel; omega⟩
    simp only [depth, Nat.add_le_add_iff_right, max_le_iff] at hfuel
    obtain ⟨a₀, -, -, a₃, a₄⟩ := Zip.fields (s := .left) h
    have hlist := hcut
    rw [toList_fill] at hlist
    have hmid := (List.pairwise_append.mp (List.pairwise_append.mp hlist).2.1).1
    simp only [toList, List.pairwise_append, List.pairwise_cons] at hmid
    obtain ⟨-, ⟨hafter, -⟩, hbefore⟩ := hmid
    have hroot : (node c l a r).root = a := rfl
    rw [hroot, search, if_neg a₀]
    rcases lt_trichotomy (cmp a) 0 with hneg | hzero | hpos
    · have hback' : ∀ b ∈ back (⟨.left, c, a, r⟩ :: up), cmp b < 0 := by
        intro b hb
        simp only [back, List.cons_append, List.mem_cons, List.mem_append] at hb
        rcases hb with rfl | hb | hb
        · exact hneg
        · exact hafter b hb hneg.le
        · exact hback b hb
      rw [if_pos hneg, a₃]
      have hzip : L.Zip (⟨.left, c, a, r⟩ :: up) l := zip_cons.mpr h
      refine (hl fuel hzip hcut (by simpa [front] using hfront) hback' (by simpa using hneg)
        hfuel.1).imp ?_ id
      rintro ⟨b, hb, hb0, heq⟩
      exact ⟨b, by simp [toList, hb], hb0, heq⟩
    · rw [if_neg (by omega), if_neg (by omega), hzero]
      exact .inl ⟨a, by simp [toList], hzero, rfl⟩
    · have hfront' : ∀ b ∈ front (⟨.right, c, a, l⟩ :: up), 0 < cmp b := by
        intro b hb
        simp only [front, List.mem_append, List.mem_singleton] at hb
        rcases hb with hb | hb | rfl
        · exact hfront b hb
        · by_contra hle
          have := hbefore b hb a List.mem_cons_self (by omega)
          omega
        · exact hpos
      rw [if_neg (by omega), if_pos hpos, show L.child .right a = r.root from a₄]
      have hzip : L.Zip (⟨.right, c, a, l⟩ :: up) r := zip_cons.mpr h
      refine (hr fuel hzip hcut hfront' (by simpa [back] using hback) (by simpa using hpos.le)
        hfuel.2).imp ?_ id
      rintro ⟨b, hb, hb0, heq⟩
      exact ⟨b, by simp [toList, hb], hb0, heq⟩

/-- The new leaf, before the colors are restored. -/
def attach (L : Links) (up : List (Frame ℕ)) (elm : ℕ) : Links :=
  setHole (rbSet L elm (top up)) up elm

theorem attach_zip {elm : ℕ} (h : L.Zip up nil) (h0 : elm ≠ 0) (hmem : elm ∉ keys up) :
    (attach L up elm).Zip up (node .red nil elm nil) ∧
      ∀ n ∉ elm :: keys up, Same L (attach L up elm) n := by
  have hn : (keys up).Nodup := h.nodup
  have hset : ∀ m, m ≠ elm → Same L (rbSet L elm (top up)) m := by
    intro m hm
    exact ⟨⟨by simp [rbSet, hm], fun s => by simp [rbSet, hm]⟩, by simp [rbSet, hm]⟩
  have hne : ∀ m ∈ keys up, m ≠ elm := by
    rintro m hm rfl
    exact hmem hm
  refine ⟨⟨?_, ?_, by simpa [toList] using ⟨hmem, hn⟩⟩, ?_⟩
  · exact HoldsUp.setHole (x := 0) (h.above.congr rfl fun m hm => hset m (hne m hm)) hn
  · have helm : Same (rbSet L elm (top up)) (attach L up elm) elm := same_setHole hmem
    refine ⟨h0, ?_, ?_, ?_, ?_, trivial, trivial⟩
    · rw [helm.color]
      simp [rbSet]
    · rw [helm.parent]
      simp [rbSet]
    · rw [helm.child]
      simp [rbSet, ColorTree.root]
    · rw [helm.child]
      simp [rbSet, ColorTree.root]
  · intro m hm
    rw [List.mem_cons, not_or] at hm
    exact (hset m hm.1).trans (same_setHole hm.2)

end Search

/-- The links hold a red-black tree with the nodes of `l` in this order. -/
def IsTree (L : Links) (l : List ℕ) : Prop := ∃ t, L.Zip [] t ∧ t.IsRedBlack ∧ t.toList = l

/-- `RB_INSERT` on a red-black tree finds a node of equal key, or links the new
node in its place. -/
theorem rbInsert_isTree (cmp : ℕ → ℕ → ℤ) {fuel elm : ℕ} {l : List ℕ} (h : IsTree L l)
    (hcut : Cuts (cmp elm) l) (h0 : elm ≠ 0) (hmem : elm ∉ l)
    (hfuel : 2 * Nat.log 2 (l.length + 1) + 2 ≤ fuel) :
    (∃ a ∈ l, cmp elm a = 0 ∧ rbInsert cmp fuel L elm = some (a, L)) ∨
    ∃ l₁ l₂ L', l = l₁ ++ l₂ ∧ (∀ a ∈ l₁, 0 < cmp elm a) ∧ (∀ b ∈ l₂, cmp elm b < 0) ∧
      rbInsert cmp fuel L elm = some (0, L') ∧ IsTree L' (l₁ ++ elm :: l₂) ∧
      ∀ n ∉ l₁ ++ elm :: l₂, Same L L' n := by
  obtain ⟨t, hzip, hrb, rfl⟩ := h
  have hdepth := hrb.depth_le
  rcases search_zip fuel hzip hcut (by simp [front]) (by simp [back])
    (show ∀ f ∈ ([] : List (Frame ℕ)).head?, (0 : ℤ) < 0 ↔ f.side = .left by simp) (by omega) with ⟨a, ha, ha0, heq⟩ | ⟨up, comp, heq, hgap, hfill⟩
  · refine .inl ⟨a, ha, ha0, ?_⟩
    have hsearch : search (cmp elm) L fuel L.root 0 0 = some (a, a, 0) := by
      rw [show L.root = t.root from hzip.above]
      exact heq
    rw [rbInsert, hsearch]
    exact if_pos (hzip.tree.ne_zero ha)
  · obtain rfl : fill up nil = t := hfill
    have hlist : (fill up nil).toList = front up ++ back up := toList_fill up nil
    have hnew : (fill up (node .red nil elm nil)).toList = front up ++ elm :: back up :=
      toList_fill up _
    have hkeys : elm ∉ keys up := fun hk => hmem (mem_fill.mpr hk)
    obtain ⟨m, hup, hm, -⟩ := isRedBlack_fill.mp hrb
    obtain ⟨hzip', hsame⟩ := attach_zip hgap.zip h0 hkeys
    have hlen := length_add_depth_le up nil
    obtain ⟨L', t', hcolor, hbec, hrb'⟩ := rbInsertColor_zip fuel hzip' rfl
      (show (node .red nil elm nil).Balanced m from ⟨⟨rfl, rfl⟩, hm, hm⟩) hup (by omega)
    refine .inr ⟨front up, back up, L', hlist, hgap.front, hgap.back, ?_,
      ⟨t', hbec.zip, hrb', hbec.toList.trans hnew⟩, ?_⟩
    · have hattach : (if top up ≠ 0 then (rbSet L elm (top up)).setChild
          (if comp < 0 then .left else .right) (top up) elm
          else (rbSet L elm (top up)).setRoot elm) = attach L up elm := by
        cases up with
        | nil => rfl
        | cons f up =>
          have hside := hgap.side f rfl
          rw [attach, setHole, top, if_pos (Zip.frame hgap.zip).1]
          cases hs : f.side with
          | left => rw [if_pos (hside.mpr hs)]
          | right => rw [if_neg (fun hlt => by simp [hside.mp hlt] at hs)]
      have hsearch : search (cmp elm) L fuel L.root 0 0 = some (0, top up, comp) := by
        rw [show L.root = (fill up nil).root from hzip.above]
        exact heq
      rw [rbInsert, hsearch]
      simp only [Option.bind_eq_bind, Option.bind_some, ne_eq, not_true_eq_false, if_false]
      rw [show ColorTree.root (node .red nil elm nil) = elm from rfl] at hcolor
      simp only [ne_eq] at hattach
      rw [hattach, hcolor]
      rfl
    · intro n hn
      rw [← hnew] at hn
      have hn' : n ∉ elm :: keys up := fun hk => hn (mem_fill.mpr hk)
      exact (hsame n hn').trans (hbec.outside n hn)

end Gandr.RbTree

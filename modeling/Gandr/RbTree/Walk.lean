import Gandr.RbTree.Remove

/-! Searching and walking: `RB_FIND`, `RB_NFIND`, `RB_NEXT`, `RB_PREV`, `RB_MIN`,
`RB_MAX` and the loops over a tree. -/

namespace Gandr.RbTree

open RedBlack ColorTree Links

variable {L : Links} {up : List (Frame ℕ)} {s : Side} {c : Color} {a b t : ColorTree ℕ}
  {x fuel : ℕ} {l l₁ l₂ : List ℕ}

section Step

/-- The end of the way down on side `s` comes first in a walk to the other side. -/
theorem descend_walk (h : L.Zip up t) (ht : t ≠ nil) (hfuel : t.depth ≤ fuel) :
    descend s L fuel t.root = some ((walk s.other t).headD 0) := by
  obtain ⟨mid, c, y, b, heq, rfl, hside⟩ := descend_zip s fuel h ht hfuel
  rw [heq, walk_fill, Side.other_other, ahead_eq_nil hside, ← branch_other, walk_branch]
  simp

/-- Climbing from a tree leads to what comes next beyond it. -/
theorem climb_zip (h : L.Zip up t) (ht : t ≠ nil) (hfuel : up.length < fuel) :
    climb s L fuel t.root = some ((ahead s up).headD 0) := by
  induction up generalizing t fuel with
  | nil =>
    obtain ⟨fuel, rfl⟩ : ∃ j, fuel = j + 1 := ⟨fuel - 1, by omega⟩
    have hroot : t.root ≠ 0 := fun h0 => ht (h.tree.root_eq_zero.mp h0)
    rw [climb, Zip.parent_root h hroot]
    rfl
  | cons f up ih =>
    obtain ⟨fuel, rfl⟩ : ∃ j, fuel = j + 1 := ⟨fuel - 1, by omega⟩
    have hroot : t.root ≠ 0 := fun h0 => ht (h.tree.root_eq_zero.mp h0)
    obtain ⟨f₀, -, -, f₃, f₄⟩ := Zip.frame h
    rw [climb, Zip.parent_root h hroot, top, ahead]
    by_cases hside : f.side = s
    · have hnext := ih (zip_cons.mp h) branch_ne_nil (by simpa using hfuel)
      rw [Frame.fill, root_branch] at hnext
      rw [if_pos ⟨f₀, (hside ▸ f₃).symm⟩, if_pos hside, hnext]
      rfl
    · have hother : f.side.other = s := by
        revert hside
        cases f.side <;> cases s <;> simp [Side.other]
      rw [if_neg ?_, if_neg hside]
      · rfl
      · rintro ⟨-, hchild⟩
        rw [← hother, f₄] at hchild
        exact Zip.root_ne h (.inl ht) hchild

/-- `RB_NEXT` and `RB_PREV` from the root of a tree in a hole. -/
theorem rbStep_zip (h : L.Zip up (branch s c a x b))
    (hfuel : up.length + a.depth < fuel) :
    rbStep s fuel L x = some ((walk s a ++ ahead s up).headD 0) := by
  obtain ⟨x₀, -, x₂, x₃, -⟩ := Zip.fields h
  have ha : L.Zip (⟨s, c, x, b⟩ :: up) a := zip_cons.mpr h
  rw [rbStep, x₃]
  rcases eq_or_ne a nil with rfl | hnil
  · rw [if_neg (by simp [ColorTree.root]), walk_nil, List.nil_append]
    split_ifs with hcond
    · -- the parent itself comes next
      rw [x₂] at hcond ⊢
      cases up with
      | nil => exact absurd rfl hcond.1
      | cons f up =>
        obtain ⟨-, -, -, f₃, f₄⟩ := Zip.frame h
        have hside : f.side ≠ s := by
          rintro rfl
          rw [top, f₄] at hcond
          have hne := Zip.root_ne h (.inl branch_ne_nil)
          rw [root_branch] at hne
          exact hne hcond.2
        rw [top, ahead, if_neg hside]
        rfl
    · have hclimb := climb_zip (s := s) h branch_ne_nil (show up.length < fuel by omega)
      rw [root_branch] at hclimb
      exact hclimb
  · rw [if_pos fun h0 => hnil (ha.tree.root_eq_zero.mp h0),
      descend_walk ha hnil (by omega), Side.other_other]
    obtain ⟨c', a', y, b', rfl⟩ := exists_branch s.other hnil
    rw [branch_other, walk_branch]
    simp

/-- A walk over the whole tree steps from each node to the next. -/
theorem rbStep_walk (h : L.Zip [] t) (hwalk : walk s t = l₁ ++ x :: l₂) (hfuel : t.depth ≤ fuel) :
    rbStep s fuel L x = some (l₂.headD 0) := by
  have hmem : x ∈ t.toList := by
    have : x ∈ walk s t := by simp [hwalk]
    cases s
    · exact List.mem_reverse.mp this
    · exact this
  obtain ⟨up, c, u, v, rfl⟩ := exists_fill hmem
  obtain ⟨a, b, hbranch⟩ : ∃ a b, node c u x v = branch s c a x b := by
    cases s
    · exact ⟨u, v, rfl⟩
    · exact ⟨v, u, rfl⟩
  rw [hbranch] at h hwalk hfuel
  have hlen := length_add_depth_le up (branch s c a x b)
  rw [depth_branch] at hlen
  have hnodup : (walk s (fill up (branch s c a x b))).Nodup := by
    rw [nodup_walk]
    simpa [keys] using h.nodup
  have heq : ((ahead s.other up).reverse ++ walk s b) ++ x :: (walk s a ++ ahead s up) =
      l₁ ++ x :: l₂ := by
    rw [← hwalk, walk_fill, walk_branch]
    simp
  rw [hwalk, ← heq] at hnodup
  have hx := List.nodup_middle.mp hnodup
  rw [List.nodup_cons, List.mem_append, not_or] at hx
  obtain ⟨-, -, rfl⟩ := (List.append_cons_inj_of_notMem hx.1.1 hx.1.2).mp heq
  exact rbStep_zip (zip_fill.mpr h) (by omega)

theorem rbMinMax_walk (h : L.Zip [] t) (hfuel : t.depth ≤ fuel) :
    rbMinMax s fuel L = some ((walk s.other t).headD 0) := by
  rw [rbMinMax, Zip.root_eq h, fill]
  rcases eq_or_ne t nil with rfl | hnil
  · simp [ColorTree.root]
  · rw [if_neg fun h0 => hnil (h.tree.root_eq_zero.mp h0), descend_walk h hnil hfuel]

/-- The loop visits what is left of the walk. -/
theorem foreachFrom_walk {rounds : ℕ} (h : L.Zip [] t) (hwalk : walk s t = l₁ ++ l₂)
    (hfuel : t.depth ≤ fuel) (hrounds : l₂.length < rounds) :
    foreachFrom s fuel L rounds (l₂.headD 0) = some l₂ := by
  induction l₂ generalizing l₁ rounds with
  | nil =>
    obtain ⟨rounds, rfl⟩ : ∃ j, rounds = j + 1 := ⟨rounds - 1, by simp at hrounds; omega⟩
    rfl
  | cons x l₂ ih =>
    obtain ⟨rounds, rfl⟩ : ∃ j, rounds = j + 1 := ⟨rounds - 1, by simp at hrounds; omega⟩
    have hx : x ≠ 0 := by
      refine h.tree.ne_zero ?_
      have : x ∈ walk s t := by simp [hwalk]
      cases s
      · exact List.mem_reverse.mp this
      · exact this
    have hnext : walk s t = (l₁ ++ [x]) ++ l₂ := by simp [hwalk]
    have hrest := ih hnext (show l₂.length < rounds by simpa using hrounds)
    rw [List.headD_cons, foreachFrom, if_neg hx, rbStep_walk h hwalk hfuel]
    simp only [Option.bind_eq_bind, Option.bind_some, hrest]

end Step

section Find

variable {cmp : ℕ → ℤ} {par res : ℕ}

theorem find?_cuts {x : ℕ} (hcut : Cuts cmp l) (hx : x ∈ l) (h0 : cmp x = 0) :
    (l.find? fun a => cmp a = 0) = some x := by
  induction l with
  | nil => simp at hx
  | cons y l ih =>
    obtain ⟨hy, hl⟩ := List.pairwise_cons.mp hcut
    rcases List.mem_cons.mp hx with rfl | hx
    · exact List.find?_cons_of_pos (by simpa using h0)
    · have hne : cmp y ≠ 0 := by
        intro hy0
        have := hy x hx hy0.le
        omega
      rw [List.find?_cons_of_neg (by simpa using hne)]
      exact ih hl hx

/-- The loop of `RB_NFIND` below a node finds the first node that is not less. -/
theorem nfindFrom_holds (h : L.Holds par t) (hcut : Cuts cmp t.toList) (hfuel : t.depth ≤ fuel) :
    nfindFrom cmp L fuel t.root res = some ((t.toList.find? fun a => cmp a ≤ 0).getD res) := by
  induction t generalizing par res fuel with
  | nil => cases fuel <;> rfl
  | node c l a r hl hr =>
    obtain ⟨fuel, rfl⟩ : ∃ j, fuel = j + 1 := ⟨fuel - 1, by simp only [depth] at hfuel; omega⟩
    simp only [depth, Nat.add_le_add_iff_right, max_le_iff] at hfuel
    obtain ⟨h₀, -, -, h₃, h₄, h₅, h₆⟩ := h
    simp only [Cuts, toList, List.pairwise_append, List.pairwise_cons] at hcut
    obtain ⟨cl, ⟨-, cr⟩, hbefore⟩ := hcut
    rw [show (node c l a r).root = a from rfl, nfindFrom, if_neg h₀, h₃, h₄, toList,
      List.find?_append]
    have hnone : 0 ≤ cmp a → (l.toList.find? fun a => cmp a ≤ 0) = none := by
      intro hle
      rw [List.find?_eq_none]
      intro b hb
      have := hbefore b hb a List.mem_cons_self
      simp only [decide_eq_true_eq]
      omega
    split_ifs with hneg hpos
    · rw [hl h₅ cl hfuel.1, List.find?_cons_of_pos (by simpa using hneg.le)]
      cases l.toList.find? fun a => cmp a ≤ 0 <;> rfl
    · rw [hr h₆ cr hfuel.2, hnone (by omega), List.find?_cons_of_neg (by simpa using hpos)]
      rfl
    · rw [hnone (by omega), List.find?_cons_of_pos (by simp; omega)]
      rfl

end Find

section Tree

variable (h : IsTree L l) (hfuel : 2 * Nat.log 2 (l.length + 1) ≤ fuel)
include h hfuel

theorem IsTree.walk : ∃ t, L.Zip [] t ∧ t.depth ≤ fuel ∧ t.toList = l := by
  obtain ⟨t, hz, hrb, rfl⟩ := h
  exact ⟨t, hz, hrb.depth_le.trans hfuel, rfl⟩

/-- `RB_NEXT` and `RB_PREV` lead to the neighbours in the order of the tree. -/
theorem rbNext_isTree (hl : l = l₁ ++ x :: l₂) : rbNext fuel L x = some (l₂.headD 0) := by
  obtain ⟨t, hz, hd, rfl⟩ := IsTree.walk h hfuel
  exact rbStep_walk (s := .right) hz hl hd

theorem rbPrev_isTree (hl : l = l₁ ++ x :: l₂) :
    rbPrev fuel L x = some (l₁.reverse.headD 0) := by
  obtain ⟨t, hz, hd, rfl⟩ := IsTree.walk h hfuel
  have hwalk : RedBlack.walk .left t = l₂.reverse ++ x :: l₁.reverse := by
    rw [RedBlack.walk, hl]
    simp
  exact rbStep_walk hz hwalk hd

theorem rbMin_isTree : rbMin fuel L = some (l.headD 0) := by
  obtain ⟨t, hz, hd, rfl⟩ := IsTree.walk h hfuel
  exact rbMinMax_walk (s := .left) hz hd

theorem rbMax_isTree : rbMax fuel L = some (l.reverse.headD 0) := by
  obtain ⟨t, hz, hd, rfl⟩ := IsTree.walk h hfuel
  exact rbMinMax_walk (s := .right) hz hd

/-- `RB_FIND` finds the node of equal key. -/
theorem rbFind_isTree {cmp : ℕ → ℤ} (hcut : Cuts cmp l) :
    rbFind cmp fuel L = some ((l.find? fun a => cmp a = 0).getD 0) := by
  obtain ⟨t, hz, hd, rfl⟩ := IsTree.walk h hfuel
  rw [rbFind, show L.root = t.root from hz.above]
  rcases search_zip fuel hz hcut (by simp [front]) (by simp [back])
    (show ∀ f ∈ ([] : List (Frame ℕ)).head?, (0 : ℤ) < 0 ↔ f.side = .left by simp) hd with
    ⟨a, ha, ha0, heq⟩ | ⟨up, comp, heq, hgap, hfill⟩
  · rw [show search cmp L fuel t.root 0 0 = some (a, a, 0) from heq, find?_cuts hcut ha ha0]
    rfl
  · have hnone : (t.toList.find? fun a => cmp a = 0) = none := by
      have hlist : t.toList = front up ++ back up := by
        rw [← show fill up nil = t from hfill, toList_fill]
        rfl
      rw [List.find?_eq_none, hlist]
      intro a ha
      simp only [decide_eq_true_eq]
      rcases List.mem_append.mp ha with ha | ha
      · exact (hgap.front a ha).ne'
      · exact (hgap.back a ha).ne
    rw [show search cmp L fuel t.root 0 0 = some (0, top up, comp) from heq, hnone]
    rfl

/-- `RB_NFIND` finds the first node that is not less. -/
theorem rbNfind_isTree {cmp : ℕ → ℤ} (hcut : Cuts cmp l) :
    rbNfind cmp fuel L = some ((l.find? fun a => cmp a ≤ 0).getD 0) := by
  obtain ⟨t, hz, hd, rfl⟩ := IsTree.walk h hfuel
  rw [rbNfind, show L.root = t.root from hz.above]
  exact nfindFrom_holds hz.tree hcut hd

/-- The two loops over a tree visit each node once, in order or in reverse. -/
theorem rbForeach_isTree {rounds : ℕ} (hrounds : l.length < rounds) :
    rbForeach fuel rounds L = some l ∧ rbForeachReverse fuel rounds L = some l.reverse := by
  have hmin := rbMin_isTree h hfuel
  have hmax := rbMax_isTree h hfuel
  obtain ⟨t, hz, hd, rfl⟩ := IsTree.walk h hfuel
  constructor
  · rw [rbForeach, hmin]
    exact foreachFrom_walk hz (List.nil_append (RedBlack.walk .right t)).symm hd hrounds
  · rw [rbForeachReverse, hmax]
    exact foreachFrom_walk hz (List.nil_append (RedBlack.walk .left t)).symm hd
      (by simpa [RedBlack.walk] using hrounds)

end Tree

end Gandr.RbTree

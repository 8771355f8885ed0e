import Gandr.Lib.RedBlack

/-! Trees of nodes that link to their children and to their parent. Nodes are
addresses and 0 is the null address. What the links hold is a tree, or a tree
in the hole that some frames lead up from. -/

namespace Gandr.RedBlack

/-- The links of all nodes, and the link to the root. -/
structure Links where
  root : ℕ
  child : Side → ℕ → ℕ
  parent : ℕ → ℕ
  color : ℕ → Color

namespace Links

def setRoot (L : Links) (m : ℕ) : Links := { L with root := m }

def setChild (L : Links) (s : Side) (n m : ℕ) : Links :=
  { L with child := fun s' n' => if s' = s ∧ n' = n then m else L.child s' n' }

def setParent (L : Links) (n m : ℕ) : Links :=
  { L with parent := fun n' => if n' = n then m else L.parent n' }

def setColor (L : Links) (n : ℕ) (c : Color) : Links :=
  { L with color := fun n' => if n' = n then c else L.color n' }

section Fields

variable (L : Links) (s s' : Side) (n n' m : ℕ) (c : Color)

@[simp] theorem root_setRoot : (L.setRoot m).root = m := rfl
@[simp] theorem child_setRoot : (L.setRoot m).child s n = L.child s n := rfl
@[simp] theorem parent_setRoot : (L.setRoot m).parent n = L.parent n := rfl
@[simp] theorem color_setRoot : (L.setRoot m).color n = L.color n := rfl
@[simp] theorem root_setChild : (L.setChild s n m).root = L.root := rfl
@[simp] theorem child_setChild : (L.setChild s n m).child s' n' =
    if s' = s ∧ n' = n then m else L.child s' n' := rfl
@[simp] theorem parent_setChild : (L.setChild s n m).parent n' = L.parent n' := rfl
@[simp] theorem color_setChild : (L.setChild s n m).color n' = L.color n' := rfl
@[simp] theorem root_setParent : (L.setParent n m).root = L.root := rfl
@[simp] theorem child_setParent : (L.setParent n m).child s n' = L.child s n' := rfl
@[simp] theorem parent_setParent : (L.setParent n m).parent n' =
    if n' = n then m else L.parent n' := rfl
@[simp] theorem color_setParent : (L.setParent n m).color n' = L.color n' := rfl
@[simp] theorem root_setColor : (L.setColor n c).root = L.root := rfl
@[simp] theorem child_setColor : (L.setColor n c).child s n' = L.child s n' := rfl
@[simp] theorem parent_setColor : (L.setColor n c).parent n' = L.parent n' := rfl
@[simp] theorem color_setColor : (L.setColor n c).color n' =
    if n' = n then c else L.color n' := rfl

end Fields

end Links

open ColorTree

/-- The node at the root, or null. -/
def ColorTree.root : ColorTree ℕ → ℕ
  | nil => 0
  | node _ _ a _ => a

@[simp] theorem ColorTree.root_branch {s : Side} {c : Color} {n f : ColorTree ℕ} {a : ℕ} :
    (branch s c n a f).root = a := by cases s <;> rfl

/-- The node above the hole, or null. -/
def top : List (Frame ℕ) → ℕ
  | [] => 0
  | f :: _ => f.key

namespace Links

variable {L L' : Links} {t : ColorTree ℕ} {up : List (Frame ℕ)} {p q n par par' : ℕ}

/-- The nodes of a tree below `par` have the links of the tree. -/
def Holds (L : Links) : ℕ → ColorTree ℕ → Prop
  | _, nil => True
  | par, node c l a r => a ≠ 0 ∧ L.color a = c ∧ L.parent a = par ∧
    L.child .left a = l.root ∧ L.child .right a = r.root ∧ L.Holds a l ∧ L.Holds a r

/-- The nodes of the frames have the links of the frames, with `p` in the hole. -/
def HoldsUp (L : Links) : List (Frame ℕ) → ℕ → Prop
  | [], p => L.root = p
  | f :: up, p => f.key ≠ 0 ∧ L.color f.key = f.color ∧ L.parent f.key = top up ∧
    L.child f.side f.key = p ∧ L.child f.side.other f.key = f.sibling.root ∧
    L.Holds f.key f.sibling ∧ L.HoldsUp up f.key

/-- The links hold the tree `t` in the hole of `up`, each node once. -/
structure Zip (L : Links) (up : List (Frame ℕ)) (t : ColorTree ℕ) : Prop where
  above : L.HoldsUp up t.root
  tree : L.Holds (top up) t
  nodup : (t.toList ++ keys up).Nodup

theorem holds_branch {s : Side} {c : Color} {n f : ColorTree ℕ} {a : ℕ} :
    L.Holds par (branch s c n a f) ↔ a ≠ 0 ∧ L.color a = c ∧ L.parent a = par ∧
      L.child s a = n.root ∧ L.child s.other a = f.root ∧ L.Holds a n ∧ L.Holds a f := by
  cases s
  · rfl
  · simp only [branch, Holds, Side.other]
    tauto

theorem zip_cons {f : Frame ℕ} : L.Zip (f :: up) t ↔ L.Zip up (f.fill t) := by
  have hperm : ((f.fill t).toList ++ keys up).Perm (t.toList ++ keys (f :: up)) := by
    refine ((perm_branch f.side f.color t f.sibling f.key).append_right _).trans ?_
    rw [keys, List.cons_append, List.append_assoc]
    exact List.perm_middle.symm
  constructor
  · rintro ⟨⟨h₀, h₁, h₂, h₃, h₄, h₅, h₆⟩, ht, hn⟩
    refine ⟨?_, holds_branch.mpr ⟨h₀, h₁, h₂, h₃, h₄, ht, h₅⟩, hperm.nodup_iff.mpr hn⟩
    rw [Frame.fill, root_branch]
    exact h₆
  · rintro ⟨hup, ht, hn⟩
    obtain ⟨h₀, h₁, h₂, h₃, h₄, ht, h₅⟩ := holds_branch.mp ht
    rw [Frame.fill, root_branch] at hup
    exact ⟨⟨h₀, h₁, h₂, h₃, h₄, h₅, hup⟩, ht, hperm.nodup_iff.mp hn⟩

theorem zip_fill : L.Zip up t ↔ L.Zip [] (fill up t) := by
  induction up generalizing t with
  | nil => rfl
  | cons f up ih => rw [zip_cons, ih, fill]

theorem zip_append {mid : List (Frame ℕ)} : L.Zip (mid ++ up) t ↔ L.Zip up (fill mid t) := by
  rw [zip_fill, fill_append, ← zip_fill]

theorem Holds.ne_zero (h : L.Holds par t) (hn : n ∈ t.toList) : n ≠ 0 := by
  induction t generalizing par with
  | nil => simp [toList] at hn
  | node c l a r hl hr =>
    obtain ⟨h₀, -, -, -, -, h₁, h₂⟩ := h
    simp only [toList, List.mem_append, List.mem_cons] at hn
    rcases hn with hn | rfl | hn
    · exact hl h₁ hn
    · exact h₀
    · exact hr h₂ hn

theorem Holds.root_eq_zero (h : L.Holds par t) : t.root = 0 ↔ t = nil := by
  cases t with
  | nil => simp [ColorTree.root]
  | node c l a r => simp [ColorTree.root, h.1]

theorem root_mem (h : t ≠ nil) : t.root ∈ t.toList := by
  cases t with
  | nil => exact absurd rfl h
  | node c l a r => simp [ColorTree.root, toList]

theorem Holds.color_root (h : L.Holds par t) (ht : t.root ≠ 0) : L.color t.root = t.color := by
  cases t with
  | nil => exact absurd rfl ht
  | node c l a r => exact h.2.1

theorem HoldsUp.ne_zero (h : L.HoldsUp up p) (hn : n ∈ keys up) : n ≠ 0 := by
  induction up generalizing p with
  | nil => simp [keys] at hn
  | cons f up ih =>
    obtain ⟨h₀, -, -, -, -, h₁, h₂⟩ := h
    simp only [keys, List.mem_cons, List.mem_append] at hn
    rcases hn with rfl | hn | hn
    · exact h₀
    · exact h₁.ne_zero hn
    · exact ih h₂ hn

theorem top_mem (h : top up ≠ 0) : top up ∈ keys up := by
  cases up with
  | nil => exact absurd rfl h
  | cons f up => simp [top, keys]

theorem HoldsUp.top_eq_zero (h : L.HoldsUp up p) : top up = 0 ↔ up = [] := by
  cases up with
  | nil => simp [top]
  | cons f up => simp [top, h.1]

/-- The links of a node but for the one to its parent. -/
structure SameBelow (L L' : Links) (n : ℕ) : Prop where
  color : L'.color n = L.color n
  child : ∀ s, L'.child s n = L.child s n

/-- All links of a node are as before. -/
structure Same (L L' : Links) (n : ℕ) : Prop extends SameBelow L L' n where
  parent : L'.parent n = L.parent n

theorem Same.refl (L : Links) (n : ℕ) : Same L L n := ⟨⟨rfl, fun _ => rfl⟩, rfl⟩

theorem Same.trans {M : Links} (h : Same L L' n) (h' : Same L' M n) : Same L M n :=
  ⟨⟨h'.color.trans h.color, fun s => (h'.child s).trans (h.child s)⟩, h'.parent.trans h.parent⟩

/-- A tree moves below another node: only the link of its root to the parent
has to change. -/
theorem Holds.move (h : L.Holds par t) (hn : t.toList.Nodup)
    (hsame : ∀ n ∈ t.toList, SameBelow L L' n)
    (hparent : ∀ n ∈ t.toList, n ≠ t.root → L'.parent n = L.parent n)
    (hroot : t.root ≠ 0 → L'.parent t.root = par') : L'.Holds par' t := by
  induction t generalizing par par' with
  | nil => trivial
  | node c l a r hl hr =>
    obtain ⟨h₀, h₁, h₂, h₃, h₄, h₅, h₆⟩ := h
    simp only [toList, List.mem_append, List.mem_cons, List.nodup_append, List.nodup_cons] at *
    obtain ⟨nl, ⟨na, nr⟩, nd⟩ := hn
    have ha := hsame a (.inr (.inl rfl))
    -- the nodes below are not the root, so their links are all as before
    have hbelow : ∀ u : ColorTree ℕ, (∀ n ∈ u.toList, n ∈ l.toList ∨ n = a ∨ n ∈ r.toList) →
        (∀ n ∈ u.toList, n ≠ a) → L.Holds a u → u.root ≠ 0 → L'.parent u.root = a := by
      intro u hu hne hold hroot
      have hmem : u.root ∈ u.toList := root_mem fun hnil => hroot (by rw [hnil]; rfl)
      rw [hparent _ (hu _ hmem) (hne _ hmem)]
      cases u with
      | nil => exact absurd rfl hroot
      | node => exact hold.2.2.1
    have hla : ∀ n ∈ l.toList, n ≠ a := fun n hn => nd n hn a (.inl rfl)
    have hra : ∀ n ∈ r.toList, n ≠ a := fun n hn he => na (he ▸ hn)
    refine ⟨h₀, ha.color.trans h₁, hroot h₀, (ha.child _).trans h₃, (ha.child _).trans h₄, ?_, ?_⟩
    · exact hl h₅ nl (fun n hn => hsame n (.inl hn))
        (fun n hn _ => hparent n (.inl hn) (hla n hn))
        (hbelow l (fun n hn => .inl hn) hla h₅)
    · exact hr h₆ nr (fun n hn => hsame n (.inr (.inr hn)))
        (fun n hn _ => hparent n (.inr (.inr hn)) (hra n hn))
        (hbelow r (fun n hn => .inr (.inr hn)) hra h₆)

theorem Holds.congr (h : L.Holds par t) (hsame : ∀ n ∈ t.toList, Same L L' n) :
    L'.Holds par t := by
  induction t generalizing par with
  | nil => trivial
  | node c l a r hl hr =>
    obtain ⟨h₀, h₁, h₂, h₃, h₄, h₅, h₆⟩ := h
    simp only [toList, List.mem_append, List.mem_cons] at hsame
    have ha := hsame a (.inr (.inl rfl))
    refine ⟨h₀, ha.color.trans h₁, ha.parent.trans h₂, (ha.child _).trans h₃,
      (ha.child _).trans h₄, ?_, ?_⟩
    · exact hl h₅ fun n hn => hsame n (.inl hn)
    · exact hr h₆ fun n hn => hsame n (.inr (.inr hn))

theorem HoldsUp.congr (h : L.HoldsUp up p) (hroot : L'.root = L.root)
    (hsame : ∀ n ∈ keys up, Same L L' n) : L'.HoldsUp up p := by
  induction up generalizing p with
  | nil => exact hroot.trans h
  | cons f up ih =>
    obtain ⟨h₀, h₁, h₂, h₃, h₄, h₅, h₆⟩ := h
    simp only [keys, List.mem_append, List.mem_cons] at hsame
    have hf := hsame f.key (.inl rfl)
    refine ⟨h₀, hf.color.trans h₁, hf.parent.trans h₂, (hf.child _).trans h₃,
      (hf.child _).trans h₄, ?_, ?_⟩
    · exact h₅.congr fun n hn => hsame n (.inr (.inl hn))
    · exact ih h₆ fun n hn => hsame n (.inr (.inr hn))

end Links

end Gandr.RedBlack

import Mathlib.Tactic

/-! Binary trees with red and black nodes. A tree with a hole is the list of the
frames from the hole up to the root, so that an algorithm that climbs a tree is
a recursion on a list. Left and right are values: what is said for a side `s`
is said for its mirror image too. -/

namespace Gandr.RedBlack

inductive Side where
  | left
  | right
  deriving DecidableEq, Repr

def Side.other : Side → Side
  | left => right
  | right => left

@[simp] theorem Side.other_other (s : Side) : s.other.other = s := by cases s <;> rfl

@[simp] theorem Side.other_ne (s : Side) : s.other ≠ s := by cases s <;> decide

@[simp] theorem Side.ne_other (s : Side) : s ≠ s.other := s.other_ne.symm

inductive Color where
  | black
  | red
  deriving DecidableEq, Repr

theorem Color.ne_black {c : Color} : c ≠ .black ↔ c = .red := by cases c <;> decide

theorem Color.ne_red {c : Color} : c ≠ .red ↔ c = .black := by cases c <;> decide

inductive ColorTree (α : Type) where
  | nil
  | node (c : Color) (l : ColorTree α) (a : α) (r : ColorTree α)
  deriving DecidableEq, Repr

variable {α : Type}

namespace ColorTree

/-- The elements in order. -/
def toList : ColorTree α → List α
  | nil => []
  | node _ l a r => l.toList ++ a :: r.toList

/-- The color of the root. An empty tree counts as black. -/
def color : ColorTree α → Color
  | nil => .black
  | node c _ _ _ => c

def depth : ColorTree α → ℕ
  | nil => 0
  | node _ l _ r => max l.depth r.depth + 1

/-- The tree with a black root. -/
def blacken : ColorTree α → ColorTree α
  | nil => nil
  | node _ l a r => node .black l a r

/-- A node with its child on side `s` first. -/
def branch (s : Side) (c : Color) (near : ColorTree α) (a : α) (far : ColorTree α) : ColorTree α :=
  match s with
  | .left => node c near a far
  | .right => node c far a near

/-- Below a red node there is no red node, and every way down from the root
meets `n` black nodes. -/
def Balanced : ColorTree α → ℕ → Prop
  | nil, n => n = 0
  | node .black l _ r, n => ∃ m, n = m + 1 ∧ l.Balanced m ∧ r.Balanced m
  | node .red l _ r, n => (l.color = .black ∧ r.color = .black) ∧ l.Balanced n ∧ r.Balanced n

def IsRedBlack (t : ColorTree α) : Prop := t.color = .black ∧ ∃ n, t.Balanced n

@[simp] theorem color_branch {s : Side} {c : Color} {n f : ColorTree α} {a : α} :
    (branch s c n a f).color = c := by cases s <;> rfl

@[simp] theorem blacken_branch {s : Side} {c : Color} {n f : ColorTree α} {a : α} :
    (branch s c n a f).blacken = branch s .black n a f := by cases s <;> rfl

theorem branch_ne_nil {s : Side} {c : Color} {n f : ColorTree α} {a : α} :
    branch s c n a f ≠ nil := by cases s <;> simp [branch]

@[simp] theorem depth_branch {s : Side} {c : Color} {n f : ColorTree α} {a : α} :
    (branch s c n a f).depth = max n.depth f.depth + 1 := by
  cases s
  · rfl
  · simp [branch, depth, max_comm]

theorem branch_other (s : Side) (c : Color) (n f : ColorTree α) (a : α) :
    branch s.other c n a f = branch s c f a n := by cases s <;> rfl

theorem balanced_black {s : Side} {n f : ColorTree α} {a : α} {k : ℕ} :
    (branch s .black n a f).Balanced k ↔ ∃ m, k = m + 1 ∧ n.Balanced m ∧ f.Balanced m := by
  cases s
  · rfl
  · simp only [branch, Balanced, and_comm]

theorem balanced_red {s : Side} {n f : ColorTree α} {a : α} {k : ℕ} :
    (branch s .red n a f).Balanced k ↔
      (n.color = .black ∧ f.color = .black) ∧ n.Balanced k ∧ f.Balanced k := by
  cases s
  · rfl
  · simp only [branch, Balanced]
    tauto

theorem exists_branch (s : Side) {t : ColorTree α} (h : t ≠ nil) :
    ∃ c n a f, t = branch s c n a f := by
  cases t with
  | nil => exact absurd rfl h
  | node c l a r =>
    cases s
    · exact ⟨c, l, a, r, rfl⟩
    · exact ⟨c, r, a, l, rfl⟩

theorem mem_branch {s : Side} {c : Color} {n f : ColorTree α} {a x : α} :
    x ∈ (branch s c n a f).toList ↔ x ∈ n.toList ∨ x = a ∨ x ∈ f.toList := by
  cases s
  · simp [branch, toList]
  · simp only [branch, toList, List.mem_append, List.mem_cons]
    tauto

theorem perm_branch (s : Side) (c : Color) (n f : ColorTree α) (a : α) :
    ((branch s c n a f).toList).Perm (a :: (n.toList ++ f.toList)) := by
  cases s
  · exact List.perm_middle
  · exact List.perm_middle.trans (List.perm_append_comm.cons a)

/-- A rotation keeps the order. -/
theorem toList_rotate (s : Side) (c c' d d' : Color) (t u v : ColorTree α) (x y : α) :
    (branch s c t x (branch s c' u y v)).toList =
      (branch s d' (branch s d t x u) y v).toList := by
  cases s <;> simp [branch, toList]

theorem toList_recolor (s : Side) (c c' : Color) (n f n' f' : ColorTree α) (a : α)
    (hn : n.toList = n'.toList) (hf : f.toList = f'.toList) :
    (branch s c n a f).toList = (branch s c' n' a f').toList := by
  cases s <;> simp [branch, toList, hn, hf]

theorem Balanced.two_pow_le {t : ColorTree α} {n : ℕ} (h : t.Balanced n) :
    2^n ≤ t.toList.length + 1 := by
  induction t generalizing n with
  | nil =>
    obtain rfl : n = 0 := h
    simp [toList]
  | node c l a r hl hr =>
    simp only [toList, List.length_append, List.length_cons]
    cases c with
    | black =>
      obtain ⟨m, rfl, h₁, h₂⟩ := h
      have := hl h₁
      have := hr h₂
      rw [Nat.pow_succ]
      omega
    | red =>
      have := hl h.2.1
      omega

theorem Balanced.depth_le {t : ColorTree α} {n : ℕ} (h : t.Balanced n) :
    t.depth ≤ 2 * n + (if t.color = .red then 1 else 0) := by
  induction t generalizing n with
  | nil => simp [depth]
  | node c l a r hl hr =>
    cases c with
    | black =>
      obtain ⟨m, rfl, h₁, h₂⟩ := h
      have h₃ := hl h₁
      have h₄ := hr h₂
      simp only [depth, color]
      split_ifs at * <;> simp at * <;> omega
    | red =>
      obtain ⟨⟨c₁, c₂⟩, h₁, h₂⟩ := h
      have h₃ := hl h₁
      have h₄ := hr h₂
      rw [c₁] at h₃
      rw [c₂] at h₄
      simp only [depth, color, reduceCtorEq, if_false, if_true] at *
      omega

/-- A red-black tree with `n` elements is at most `2 log (n + 1)` deep. -/
theorem IsRedBlack.depth_le {t : ColorTree α} (h : t.IsRedBlack) :
    t.depth ≤ 2 * Nat.log 2 (t.toList.length + 1) := by
  obtain ⟨hc, n, hn⟩ := h
  have h₁ := hn.depth_le
  have h₂ : n ≤ Nat.log 2 (t.toList.length + 1) :=
    Nat.le_log_of_pow_le (by decide) hn.two_pow_le
  simp only [hc, reduceCtorEq, if_false] at h₁
  omega

end ColorTree

open ColorTree

/-- A node on the way up from a hole, with the subtree on its other side. -/
structure Frame (α : Type) where
  side : Side
  color : Color
  key : α
  sibling : ColorTree α

/-- A tree in the hole of a frame. -/
def Frame.fill (f : Frame α) (t : ColorTree α) : ColorTree α := branch f.side f.color t f.key f.sibling

/-- A tree in the hole that the frames lead up from. -/
def fill : List (Frame α) → ColorTree α → ColorTree α
  | [], t => t
  | f :: up, t => fill up (f.fill t)

/-- The elements of the frames. -/
def keys : List (Frame α) → List α
  | [] => []
  | f :: up => f.key :: (f.sibling.toList ++ keys up)

theorem key_mem_keys {f : Frame α} {up : List (Frame α)} (h : f ∈ up) : f.key ∈ keys up := by
  induction up with
  | nil => simp at h
  | cons g up ih =>
    rw [keys]
    rcases List.mem_cons.mp h with rfl | h
    · exact List.mem_cons_self
    · exact List.mem_cons_of_mem _ (List.mem_append_right _ (ih h))

/-- The elements in front of the hole. -/
def front : List (Frame α) → List α
  | [] => []
  | f :: up => front up ++ match f.side with
    | .left => []
    | .right => f.sibling.toList ++ [f.key]

/-- The elements behind the hole. -/
def back : List (Frame α) → List α
  | [] => []
  | f :: up => (match f.side with
    | .left => f.key :: f.sibling.toList
    | .right => []) ++ back up

theorem fill_append (mid up : List (Frame α)) (t : ColorTree α) :
    fill (mid ++ up) t = fill up (fill mid t) := by
  induction mid generalizing t with
  | nil => rfl
  | cons f mid ih => exact ih (f.fill t)

theorem toList_fill (up : List (Frame α)) (t : ColorTree α) :
    (fill up t).toList = front up ++ (t.toList ++ back up) := by
  induction up generalizing t with
  | nil => simp [fill, front, back]
  | cons f up ih =>
    rw [fill, ih, Frame.fill, front, back]
    cases f.side <;> simp [branch, toList]

/-- The elements as a walk towards side `s` meets them. -/
def walk : Side → ColorTree α → List α
  | .left, t => t.toList.reverse
  | .right, t => t.toList

theorem walk_branch (s : Side) (c : Color) (n f : ColorTree α) (a : α) :
    walk s (branch s c n a f) = walk s f ++ a :: walk s n := by
  cases s
  · simp [walk, branch, toList]
  · rfl

@[simp] theorem walk_nil (s : Side) : walk s (nil : ColorTree α) = [] := by cases s <;> rfl

theorem length_walk (s : Side) (t : ColorTree α) : (walk s t).length = t.toList.length := by
  cases s
  · exact List.length_reverse
  · rfl

theorem nodup_walk (s : Side) (t : ColorTree α) : (walk s t).Nodup ↔ t.toList.Nodup := by
  cases s
  · exact List.nodup_reverse
  · rfl

/-- The elements beyond the hole on side `s`, the closest first. -/
def ahead (s : Side) : List (Frame α) → List α
  | [] => []
  | f :: up => (if f.side = s then [] else f.key :: walk s f.sibling) ++ ahead s up

theorem walk_fill (s : Side) (up : List (Frame α)) (t : ColorTree α) :
    walk s (fill up t) = (ahead s.other up).reverse ++ (walk s t ++ ahead s up) := by
  induction up generalizing t with
  | nil => simp [fill, ahead]
  | cons f up ih =>
    rw [fill, ih, ahead, ahead, Frame.fill]
    obtain ⟨side, c, a, u⟩ := f
    cases s <;> cases side <;> simp [walk, branch, toList, Side.other]

theorem ahead_eq_nil {s : Side} {up : List (Frame α)} (h : ∀ f ∈ up, f.side = s) :
    ahead s up = [] := by
  induction up with
  | nil => rfl
  | cons f up ih =>
    simp only [List.mem_cons, forall_eq_or_imp] at h
    rw [ahead, if_pos h.1, ih h.2]
    rfl

theorem perm_fill (up : List (Frame α)) (t : ColorTree α) :
    ((fill up t).toList).Perm (t.toList ++ keys up) := by
  induction up generalizing t with
  | nil => simp [fill, keys]
  | cons f up ih =>
    refine (ih (f.fill t)).trans ?_
    rw [keys]
    refine ((perm_branch f.side f.color t f.sibling f.key).append_right _).trans ?_
    rw [List.cons_append, List.append_assoc]
    exact List.perm_middle.symm

theorem length_add_depth_le (up : List (Frame α)) (t : ColorTree α) :
    up.length + t.depth ≤ (fill up t).depth := by
  induction up generalizing t with
  | nil => simp [fill]
  | cons f up ih =>
    have := ih (f.fill t)
    rw [Frame.fill, depth_branch] at this
    rw [fill, List.length_cons, Frame.fill]
    omega

theorem exists_fill {t : ColorTree α} {x : α} (h : x ∈ t.toList) :
    ∃ up c l r, t = fill up (node c l x r) := by
  induction t with
  | nil => simp [toList] at h
  | node c l a r hl hr =>
    simp only [toList, List.mem_append, List.mem_cons] at h
    rcases h with h | rfl | h
    · obtain ⟨up, c', l', r', rfl⟩ := hl h
      exact ⟨up ++ [⟨.left, c, a, r⟩], c', l', r', by rw [fill_append]; rfl⟩
    · exact ⟨[], c, l, r, rfl⟩
    · obtain ⟨up, c', l', r', rfl⟩ := hr h
      exact ⟨up ++ [⟨.right, c, a, l⟩], c', l', r', by rw [fill_append]; rfl⟩

/-- The color above the hole. A red root is not allowed, as below a red node. -/
def above : List (Frame α) → Color
  | [] => .red
  | f :: _ => f.color

/-- The frames make a red-black tree of a tree with `n` black nodes on every way
down, but for the color of its root. -/
def Supports : List (Frame α) → ℕ → Prop
  | [], _ => True
  | f :: up, n => f.sibling.Balanced n ∧
    ((f.color = .black ∧ Supports up (n + 1)) ∨
      (f.color = .red ∧ f.sibling.color = .black ∧ above up = .black ∧ Supports up n))

/-- The elements of the frames do not matter. -/
theorem Supports.rekey {mid up : List (Frame α)} {s : Side} {c : Color} {x y : α}
    {t : ColorTree α} {n : ℕ} (h : Supports (mid ++ ⟨s, c, x, t⟩ :: up) n) :
    Supports (mid ++ ⟨s, c, y, t⟩ :: up) n := by
  induction mid generalizing n with
  | nil => exact h
  | cons f mid ih =>
    have habove : above (mid ++ ⟨s, c, y, t⟩ :: up) = above (mid ++ ⟨s, c, x, t⟩ :: up) := by
      cases mid <;> rfl
    obtain ⟨hf, ⟨hc, h⟩ | ⟨hc, hs, hab, h⟩⟩ := h
    · exact ⟨hf, .inl ⟨hc, ih h⟩⟩
    · exact ⟨hf, .inr ⟨hc, hs, habove.trans hab, ih h⟩⟩

theorem isRedBlack_fill {up : List (Frame α)} {t : ColorTree α} :
    (fill up t).IsRedBlack ↔
      ∃ n, Supports up n ∧ t.Balanced n ∧ (t.color = .red → above up = .black) := by
  induction up generalizing t with
  | nil =>
    simp only [fill, IsRedBlack, Supports, above, true_and, reduceCtorEq, imp_false,
      Color.ne_red]
    constructor
    · rintro ⟨hc, n, hn⟩
      exact ⟨n, hn, hc⟩
    · rintro ⟨n, hn, hc⟩
      exact ⟨hc, n, hn⟩
  | cons f up ih =>
    rw [fill, ih, Frame.fill]
    simp only [color_branch, above, Supports]
    cases hc : f.color with
    | black =>
      simp only [balanced_black]
      constructor
      · rintro ⟨_, hup, ⟨m, rfl, ht, hf⟩, -⟩
        exact ⟨m, ⟨hf, .inl ⟨trivial, hup⟩⟩, ht, fun _ => trivial⟩
      · rintro ⟨m, ⟨hf, ⟨-, hup⟩ | ⟨hred, -⟩⟩, ht, -⟩
        · exact ⟨m + 1, hup, ⟨m, rfl, ht, hf⟩, by simp⟩
        · cases hred
    | red =>
      simp only [balanced_red]
      constructor
      · rintro ⟨n, hup, ⟨⟨ct, cf⟩, ht, hf⟩, hab⟩
        exact ⟨n, ⟨hf, .inr ⟨trivial, cf, hab trivial, hup⟩⟩, ht, fun h => absurd h (by simp [ct])⟩
      · rintro ⟨n, ⟨hf, ⟨hblack, -⟩ | ⟨-, cf, hab, hup⟩⟩, ht, hred⟩
        · cases hblack
        · refine ⟨n, hup, ⟨⟨Color.ne_red.mp fun h => ?_, cf⟩, ht, hf⟩, fun _ => hab⟩
          cases hred h

end Gandr.RedBlack

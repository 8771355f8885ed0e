import Mathlib.Tactic

/-! Nodes in a sequence and nodes on a chain of links. Nodes are addresses and
0 is the null address. A chain is a linked list read through a link function,
which need not end; `Linked` says that it does, and in which order it visits. -/

namespace Gandr.Links

/-- The element after `x`, or null. -/
def after : List ℕ → ℕ → ℕ
  | [], _ => 0
  | y :: rest, x => if y = x then rest.headD 0 else after rest x

/-- The element before `x`, or null. -/
def before : List ℕ → ℕ → ℕ
  | [], _ => 0
  | y :: rest, x => if rest.head? = some x then y else before rest x

theorem after_append {l₁ l₂ : List ℕ} {x : ℕ} (h : x ∉ l₁) :
    after (l₁ ++ x :: l₂) x = l₂.headD 0 := by
  induction l₁ with
  | nil => simp [after]
  | cons y rest ih =>
    simp only [List.mem_cons, not_or] at h
    simp [after, Ne.symm h.1, ih h.2]

theorem before_not_mem {l : List ℕ} {x : ℕ} (h : x ∉ l) : before l x = 0 := by
  induction l with
  | nil => rfl
  | cons y rest ih =>
    simp only [List.mem_cons, not_or] at h
    have hd : rest.head? ≠ some x := fun hx => h.2 (List.mem_of_mem_head? hx)
    simp [before, hd, ih h.2]

theorem before_head {l : List ℕ} {x : ℕ} (h : x ∉ l) : before (x :: l) x = 0 := by
  have hd : l.head? ≠ some x := fun hx => h (List.mem_of_mem_head? hx)
  simp [before, hd, before_not_mem h]

theorem before_append {l₁ l₂ : List ℕ} {p x : ℕ} (h : x ∉ l₁) (hp : x ≠ p) :
    before (l₁ ++ p :: x :: l₂) x = p := by
  induction l₁ with
  | nil => simp [before]
  | cons y rest ih =>
    simp only [List.mem_cons, not_or] at h
    have hd : (rest ++ p :: x :: l₂).head? ≠ some x := by
      cases rest with
      | nil => simpa using Ne.symm hp
      | cons z t =>
        simp only [List.mem_cons, not_or] at h
        simpa using Ne.symm h.2.1
    simp only [List.cons_append, before, hd, if_false, ih h.2]

theorem erase_append {l₁ l₂ : List ℕ} {x : ℕ} (h : x ∉ l₁) :
    (l₁ ++ x :: l₂).erase x = l₁ ++ l₂ := by
  rw [List.erase_append_right _ h, List.erase_cons_head]

/-- Following `next` from `p` visits exactly these nodes and then ends. -/
def Linked (next : ℕ → ℕ) : ℕ → List ℕ → Prop
  | p, [] => p = 0
  | p, x :: rest => p = x ∧ x ≠ 0 ∧ Linked next (next x) rest

theorem Linked.frame {next next' : ℕ → ℕ} {p : ℕ} {l : List ℕ} (h : Linked next p l)
    (same : ∀ x ∈ l, next' x = next x) : Linked next' p l := by
  induction l generalizing p with
  | nil => exact h
  | cons x rest ih =>
    obtain ⟨hp, hx, hrest⟩ := h
    refine ⟨hp, hx, ?_⟩
    rw [same x List.mem_cons_self]
    exact ih hrest (fun y hy => same y (List.mem_cons_of_mem _ hy))

theorem Linked.update {next : ℕ → ℕ} {p x q : ℕ} {l : List ℕ} (h : Linked next p l)
    (fresh : x ∉ l) : Linked (Function.update next x q) p l := by
  refine h.frame (fun y hy => Function.update_of_ne ?_ _ _)
  rintro rfl
  exact fresh hy

theorem Linked.push {next : ℕ → ℕ} {p x : ℕ} {l : List ℕ} (h : Linked next p l)
    (hx : x ≠ 0) (fresh : x ∉ l) : Linked (Function.update next x p) x (x :: l) := by
  refine ⟨rfl, hx, ?_⟩
  rw [Function.update_self]
  exact h.update fresh

/-- A chain that ends has no link from a node to itself. -/
theorem Linked.no_loop {next : ℕ → ℕ} {p : ℕ} {l : List ℕ} (h : Linked next p l)
    (hloop : next p = p) : p = 0 := by
  induction l generalizing p with
  | nil => exact h
  | cons x rest ih =>
    obtain ⟨rfl, -, hrest⟩ := h
    rw [hloop] at hrest
    exact ih hrest hloop

theorem Linked.unique {next : ℕ → ℕ} {p : ℕ} {l l' : List ℕ} (h : Linked next p l)
    (h' : Linked next p l') : l = l' := by
  induction l generalizing p l' with
  | nil =>
    cases l' with
    | nil => rfl
    | cons y rest => exact absurd (h'.1.symm.trans h) h'.2.1
  | cons x rest ih =>
    cases l' with
    | nil => exact absurd (h.1.symm.trans h') h.2.1
    | cons y rest' =>
      obtain rfl : x = y := h.1.symm.trans h'.1
      rw [ih h.2.2 h'.2.2]

/-- A list in increasing key order splits at any key. -/
theorem split_at_key {α : Type} {key : α → ℕ} {l : List α}
    (sorted : l.Pairwise (fun a b => key a < key b)) (k : ℕ) :
    (∃ l₁ x l₂, l = l₁ ++ x :: l₂ ∧ key x = k ∧
      (∀ m ∈ l₁, key m < k) ∧ ∀ m ∈ l₂, k < key m) ∨
    (∃ l₁ l₂, l = l₁ ++ l₂ ∧ (∀ m ∈ l₁, key m < k) ∧ ∀ m ∈ l₂, k < key m) := by
  induction l with
  | nil => exact .inr ⟨[], [], rfl, by simp, by simp⟩
  | cons x rest ih =>
    obtain ⟨hx, hrest⟩ := List.pairwise_cons.mp sorted
    rcases lt_trichotomy (key x) k with hlt | heq | hgt
    · rcases ih hrest with ⟨l₁, y, l₂, rfl, hy, h₁, h₂⟩ | ⟨l₁, l₂, rfl, h₁, h₂⟩
      · refine .inl ⟨x :: l₁, y, l₂, rfl, hy, ?_, h₂⟩
        simpa [hlt] using h₁
      · refine .inr ⟨x :: l₁, l₂, rfl, ?_, h₂⟩
        simpa [hlt] using h₁
    · exact .inl ⟨[], x, rest, rfl, heq, by simp, fun m hm => heq ▸ hx m hm⟩
    · refine .inr ⟨[], x :: rest, rfl, by simp, ?_⟩
      intro m hm
      rcases List.mem_cons.mp hm with rfl | hm
      · exact hgt
      · exact hgt.trans (hx m hm)

/-- The members above a key, in a list split at the key. -/
theorem filter_above {key : ℕ → ℕ} {l₁ l₂ : List ℕ} {k : ℕ} (h₁ : ∀ m ∈ l₁, key m ≤ k)
    (h₂ : ∀ m ∈ l₂, k < key m) : (l₁ ++ l₂).filter (fun m => k < key m) = l₂ := by
  have hf₁ : l₁.filter (fun m => k < key m) = [] := by simpa using h₁
  have hf₂ : l₂.filter (fun m => k < key m) = l₂ := by simpa using h₂
  rw [List.filter_append, hf₁, hf₂, List.nil_append]

theorem while_congr {f g : ℕ → Bool} {l : List ℕ} (h : ∀ m ∈ l, f m = g m) :
    l.takeWhile f = l.takeWhile g ∧ l.dropWhile f = l.dropWhile g := by
  induction l with
  | nil => exact ⟨rfl, rfl⟩
  | cons x rest ih =>
    obtain ⟨hx, hrest⟩ := List.forall_mem_cons.mp h
    obtain ⟨h₁, h₂⟩ := ih hrest
    simp only [List.takeWhile_cons, List.dropWhile_cons, hx, h₁, h₂, and_self]

/-- A list whose first part passes the test, and the next element does not. -/
theorem while_split {α : Type} {f : α → Bool} {l r : List α} (hl : ∀ m ∈ l, f m = true)
    (hr : ∀ m ∈ r.head?, f m = false) :
    (l ++ r).takeWhile f = l ∧ (l ++ r).dropWhile f = r := by
  rw [List.takeWhile_append_of_pos hl, List.dropWhile_append_of_pos hl]
  cases r with
  | nil => simp
  | cons x r =>
    have hx : f x = false := hr x rfl
    simp [hx]

theorem after_mem {l : List ℕ} {x : ℕ} (h : after l x ≠ 0) : after l x ∈ l := by
  induction l with
  | nil => exact absurd rfl h
  | cons y rest ih =>
    unfold after at h ⊢
    split_ifs at h ⊢ with hy
    · cases rest with
      | nil => exact absurd rfl h
      | cons z rest => simp
    · exact List.mem_cons_of_mem _ (ih h)

theorem before_mem {l : List ℕ} {x : ℕ} (h : before l x ≠ 0) : before l x ∈ l := by
  induction l with
  | nil => exact absurd rfl h
  | cons y rest ih =>
    unfold before at h ⊢
    split_ifs at h ⊢ with hy
    · exact List.mem_cons_self
    · exact List.mem_cons_of_mem _ (ih h)

theorem after_not_mem {l : List ℕ} {x : ℕ} (h : x ∉ l) : after l x = 0 := by
  induction l with
  | nil => rfl
  | cons y rest ih =>
    simp only [List.mem_cons, not_or] at h
    simp [after, Ne.symm h.1, ih h.2]

end Gandr.Links

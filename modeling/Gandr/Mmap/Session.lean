import Gandr.Mmap.Free

/-! Sessions of `gd_alloc_pages` and `gd_free_pages`. In every state of a session
the live allocations are disjoint ranges of what was conventional memory, all
other memory has its initial type, and a session that has freed everything is
back at the initial map. -/

namespace Gandr.Mmap

/-- A successful `gd_alloc_pages` call. -/
structure Allocation where
  type : MemoryType
  start : ℕ
  count : ℕ
  deriving DecidableEq

namespace Allocation

def Has (a : Allocation) (x : ℕ) : Prop := a.start ≤ x ∧ x < a.start + 4096 * a.count

/-- The requests a session makes. -/
def Valid (T : Target) (type : MemoryType) (count : ℕ) : Prop :=
  type ≠ .conventionalMemory ∧ type ≠ .unusableMemory ∧ 1 ≤ count ∧ count * 4096 < 2^T.ptrBits

def Disjoint (a b : Allocation) : Prop :=
  a.start + 4096 * a.count ≤ b.start ∨ b.start + 4096 * b.count ≤ a.start

instance (T : Target) (type : MemoryType) (count : ℕ) : Decidable (Valid T type count) :=
  inferInstanceAs (Decidable (_ ∧ _ ∧ _ ∧ _))

theorem Disjoint.symm {a b : Allocation} (h : Disjoint a b) : Disjoint b a := Or.symm h

theorem Disjoint.not_has {a b : Allocation} {x : ℕ} (h : Disjoint a b) (hx : a.Has x) :
    ¬ b.Has x := by
  unfold Disjoint at h
  unfold Has at *
  omega

end Allocation

/-- The states a session reaches, with the allocations that are live there, as
long as no page is taken for nodes. -/
inductive Session (T : Target) (fuel : ℕ) (s₀ : State) : State → List Allocation → Prop
  | start : Session T fuel s₀ s₀ []
  | alloc {s : State} {live : List Allocation} {type : MemoryType} {count : ℕ} {reply : AllocReply}
      {r : ℕ} (h : Session T fuel s₀ s live) (valid : Allocation.Valid T type count)
      (call : gdAllocPages T type count s = .ok reply) (ok : reply.rv = 0)
      (result : reply.presult = some r) (pool : reply.state.refills = s.refills) :
      Session T fuel s₀ reply.state (⟨type, r, count⟩ :: live)
  | free {s s' : State} {live : List Allocation} {a : Allocation} (h : Session T fuel s₀ s live)
      (mem : a ∈ live) (call : gdFreePages T fuel a.start a.count s = .returned s')
      (pool : s'.refills = s.refills) : Session T fuel s₀ s' (live.erase a)

/-- What holds in every state of a session. -/
structure SessionInv (T : Target) (s₀ s : State) (live : List Allocation) : Prop where
  wellFormed : WellFormed T s
  maximal : Maximal s.entries
  valid : ∀ a ∈ live, Allocation.Valid T a.type a.count
  aligned : ∀ a ∈ live, a.start % 4096 = 0
  disjoint : live.Pairwise Allocation.Disjoint
  was : ∀ a ∈ live, ∀ x, a.Has x → typeAt s₀.entries x = some .conventionalMemory
  now : ∀ a ∈ live, ∀ x, a.Has x → typeAt s.entries x = some a.type
  rest : ∀ x, (∀ a ∈ live, ¬ a.Has x) → typeAt s.entries x = typeAt s₀.entries x

section Steps

variable {T : Target} {s₀ s s' : State} {live : List Allocation} {a : Allocation}

theorem SessionInv.alloc {type : MemoryType} {count r : ℕ} (h : SessionInv T s₀ s live)
    (hvalid : Allocation.Valid T type count)
    (ha : Allocated T s s' type r (4096 * count)) (hmax : Maximal s'.entries) :
    SessionInv T s₀ s' (⟨type, r, count⟩ :: live) := by
  -- a live allocation is not conventional memory, so the new range avoids it
  have hfree : ∀ b ∈ live, ∀ x, r ≤ x → x < r + 4096 * count → ¬ b.Has x := by
    intro b hb x h₁ h₂ hx
    have hbx := h.now b hb x hx
    rw [ha.was x h₁ h₂] at hbx
    exact (h.valid b hb).1 (Option.some.inj hbx).symm
  have hcount := hvalid.2.2.1
  refine ⟨ha.wellFormed, hmax, List.forall_mem_cons.mpr ⟨hvalid, h.valid⟩,
    List.forall_mem_cons.mpr ⟨ha.aligned, h.aligned⟩, List.pairwise_cons.mpr ⟨?_, h.disjoint⟩,
    List.forall_mem_cons.mpr ⟨?_, h.was⟩, List.forall_mem_cons.mpr ⟨?_, ?_⟩, ?_⟩
  · intro b hb
    have hbc := (h.valid b hb).2.2.1
    have h₁ := hfree b hb r le_rfl (by omega)
    have h₂ := hfree b hb b.start
    unfold Allocation.Has at h₁ h₂
    unfold Allocation.Disjoint
    dsimp only
    omega
  · rintro x ⟨h₁, h₂⟩
    have hnone : ∀ b ∈ live, ¬ b.Has x := fun b hb => hfree b hb x h₁ h₂
    rw [← h.rest x hnone]
    exact ha.was x h₁ h₂
  · rintro x ⟨h₁, h₂⟩
    rw [ha.now x, if_pos ⟨h₁, h₂⟩]
  · intro b hb x hx
    rw [ha.now x, if_neg fun hr => hfree b hb x hr.1 hr.2 hx]
    exact h.now b hb x hx
  · intro x hx
    obtain ⟨h₁, h₂⟩ := List.forall_mem_cons.mp hx
    have hout : ¬ (r ≤ x ∧ x < r + 4096 * count) := h₁
    rw [ha.now x, if_neg hout]
    exact h.rest x h₂

theorem SessionInv.free (h : SessionInv T s₀ s live) (ha : a ∈ live)
    (hf : Freed T s s' a.start (4096 * a.count)) : SessionInv T s₀ s' (live.erase a) := by
  have hsub : ∀ b ∈ live.erase a, b ∈ live := fun b hb => List.mem_of_mem_erase hb
  have hperm := List.perm_cons_erase ha
  have hpair := (hperm.pairwise_iff Allocation.Disjoint.symm).mp h.disjoint
  obtain ⟨hdis, hpair⟩ := List.pairwise_cons.mp hpair
  refine ⟨hf.wellFormed, hf.maximal, fun b hb => h.valid b (hsub b hb),
    fun b hb => h.aligned b (hsub b hb), hpair, fun b hb => h.was b (hsub b hb), ?_, ?_⟩
  · intro b hb x hx
    have hout : ¬ (a.start ≤ x ∧ x < a.start + 4096 * a.count) :=
      fun hax => (hdis b hb).not_has hax hx
    rw [hf.now x, if_neg hout]
    exact h.now b (hsub b hb) x hx
  · intro x hx
    rw [hf.now x]
    split_ifs with hax
    · exact (h.was a ha x hax).symm
    · refine h.rest x ?_
      intro b hb
      rcases List.mem_cons.mp (hperm.mem_iff.mp hb) with rfl | hb
      · exact hax
      · exact hx b hb

/-- A live allocation can be freed. -/
theorem SessionInv.freeable (h : SessionInv T s₀ s live) (ha : a ∈ live) (fuel : ℕ) :
    Succeeds s (fun u => Freed T s u a.start (4096 * a.count))
      (gdFreePages T (fuel + 4) a.start a.count s) := by
  obtain ⟨h₁, h₂, hcount, hrep⟩ := h.valid a ha
  have hlt : a.start < a.start + 4096 * a.count := by omega
  obtain ⟨m, hm, htype, hlo, hhi⟩ := held_in_one h.wellFormed.tidy h.maximal hlt
    (fun x hx₁ hx₂ => h.now a ha x ⟨hx₁, hx₂⟩)
  obtain ⟨p, hp, rfl⟩ := List.mem_map.mp hm
  obtain ⟨q, r, htree⟩ := List.append_of_mem hp
  exact gdFreePages_spec h.wellFormed h.maximal htree hcount hrep (h.aligned a ha)
    (htype ▸ h₁) (htype ▸ h₂) hlo hhi fuel

theorem Session.inv {fuel : ℕ} (hwf : WellFormed T s₀) (hmax : Maximal s₀.entries)
    (h : Session T (fuel + 4) s₀ s live) : SessionInv T s₀ s live := by
  induction h with
  | start =>
    exact ⟨hwf, hmax, by simp, by simp, List.Pairwise.nil, by simp, by simp, fun x _ => rfl⟩
  | alloc _ valid call ok result pool ih =>
    rcases gdAllocPages_spec ih.wellFormed valid.2.2.1 valid.2.2.2 with
      hnone | ⟨r, s', hr, ha, hm⟩ | ⟨-, herr | ⟨r, s', hr, hrefills⟩⟩
    · rw [hnone, Except.ok.injEq] at call
      subst call
      exact absurd (show enomem = 0 from ok) (by decide)
    · rw [hr, Except.ok.injEq] at call
      subst call
      obtain rfl := Option.some.inj result
      exact ih.alloc valid ha (hm valid.1 ih.maximal)
    · rw [herr] at call
      cases call
    · rw [hr, Except.ok.injEq] at call
      subst call
      exact absurd pool (by rw [hrefills]; omega)
  | free _ mem call pool ih =>
    have hf := ih.freeable mem fuel
    rw [call] at hf
    cases hf with
    | returned hf => exact ih.free mem (hf pool)

end Steps

/-- Every session from a maximal map: no call panics, the live ranges are
disjoint and lie in what was conventional memory, they have their types, all
else has its initial type, and once nothing is live the entries are the initial
ones. -/
theorem session_restores (T : Target) (fuel : ℕ) (hfuel : 4 ≤ fuel) (s₀ s : State)
    (live : List Allocation) (hwf : WellFormed T s₀) (hmax : Maximal s₀.entries)
    (h : Session T fuel s₀ s live) :
    SessionInv T s₀ s live ∧
    (∀ type count, Allocation.Valid T type count → PoolReady s →
      ∃ reply, gdAllocPages T type count s = .ok reply) ∧
    (∀ a ∈ live, Succeeds s (fun _ => True) (gdFreePages T fuel a.start a.count s)) ∧
    (live = [] → s.entries.map range = s₀.entries.map range) := by
  obtain ⟨fuel, rfl⟩ : ∃ k, fuel = k + 4 := ⟨fuel - 4, by omega⟩
  have hinv := h.inv hwf hmax
  refine ⟨hinv, ?_, ?_, ?_⟩
  · intro type count valid hpool
    rcases gdAllocPages_spec hinv.wellFormed valid.2.2.1 valid.2.2.2 with
      hnone | ⟨r, s', hr, -⟩ | ⟨hdry, -⟩
    · exact ⟨_, hnone⟩
    · exact ⟨_, hr⟩
    · exact absurd hpool hdry
  · intro a ha
    exact (hinv.freeable ha fuel).mono fun _ _ => trivial
  · rintro rfl
    exact ranges_eq_of_typeAt hinv.wellFormed.tidy hwf.tidy hinv.maximal hmax
      fun x => hinv.rest x (by simp)

/-- One conventional entry, in the first static slot. -/
def oneEntry : State :=
  { State.initial .lp64 with
    entry := fun _ => { type := .conventionalMemory, physicalStart := 0x100000, size := 0x10000 }
    tree := [0x20000]
    allocNext := 0x20048
    allocatable := 31 }

theorem oneEntry_wellFormed : WellFormed .lp64 oneEntry := by
  refine ⟨overlapPrecedence_complete, ⟨[], rfl, by decide, by decide, by decide⟩, ?_⟩
  exact tidy_cons.mpr ⟨⟨by decide, by decide, by decide, by decide⟩, by simp, tidy_nil⟩

theorem oneEntry_session :
    ∃ s live, live ≠ [] ∧ Session .lp64 4 oneEntry s live ∧ SessionInv .lp64 oneEntry s live := by
  cases hcall : gdAllocPages .lp64 .loaderData 2 oneEntry with
  | error m =>
    have hok : (gdAllocPages .lp64 .loaderData 2 oneEntry).toBool = true := by decide +kernel
    rw [hcall] at hok
    cases hok
  | ok reply =>
    have hreply : (gdAllocPages .lp64 .loaderData 2 oneEntry).toOption.map
        (fun r => (r.rv, r.presult, r.state.refills)) = some (0, some 0x100000, 0) := by
      decide +kernel
    rw [hcall] at hreply
    simp only [Except.toOption, Option.map_some, Option.some.injEq, Prod.mk.injEq] at hreply
    have hsession : Session .lp64 4 oneEntry reply.state [⟨.loaderData, 0x100000, 2⟩] :=
      .alloc .start (by decide) hcall hreply.1 hreply.2.1 hreply.2.2
    exact ⟨_, _, List.cons_ne_nil _ _, hsession,
      (session_restores .lp64 4 le_rfl oneEntry _ _ oneEntry_wellFormed
        (List.pairwise_singleton _ _) hsession).1⟩

end Gandr.Mmap

import Gandr.Fb.Console

/-! Scrolling. With a back buffer the oldest line of the ring is cleared and
becomes the last one; without, the rows of pixels move up in the front buffer. -/

namespace Gandr.Fb

/-- The rows below the last character line are blank, where they would be moved
into the text. -/
def BlankBelow (m : ModeInfo) (base : Buffer UInt8) : Prop :=
  m.bytesPerScanline = m.rowBytes →
    ∀ x, m.lines * (13 * m.rowBytes) ≤ x → x < m.height * m.rowBytes → base x = 0

section Ring

variable {m : ModeInfo} {fg : UInt32} {base : Buffer UInt8} {dev : Device} {con : Console}

/-- A cleared line of the back buffer. -/
theorem clearLine_cell (h : m.Valid) (hm : dev.curMode = m) (q₀ : ℕ) (b : Buffer UInt8)
    {q j c : ℕ} (hj : j < 13) (hc : c < m.rowBytes) :
    memsetPixel dev (q₀ * (13 * m.rowBytes)) 0 (m.width * 13) b (cell m.rowBytes q j c) =
      if q = q₀ then 0 else b (cell m.rowBytes q j c) := by
  have hw := memsetPixel_writes h hm (q₀ * (13 * m.rowBytes)) (m.width * 13)
  have hsize : m.width * 13 * m.pixelSize = 1 * (13 * m.rowBytes) := by
    unfold ModeInfo.rowBytes
    ring
  rw [hsize] at hw
  simp only [lt_lines_iff h.rowBytes_pos] at hw
  split_ifs with hq
  · subst hq
    refine hw.value b ⟨cell m.rowBytes 0 j c, ⟨0, one_pos, j, hj, c, hc, rfl⟩, ?_, rfl⟩ ?_
    · rw [← cell_add, Nat.add_zero]
    · rintro v ⟨k, -, -, rfl⟩
      rfl
  · refine hw.frame b ?_
    rintro v ⟨k, ⟨q', hq', j', hj', c', hc', rfl⟩, heq, rfl⟩
    rw [← cell_add] at heq
    have := (cell_inj hc hc' hj hj' heq).1
    omega

theorem ring_succ {M a : ℕ} (q : ℕ) : ((a + 1) % M + q) % M = (a + (q + 1)) % M := by
  rw [Nat.mod_add_mod]
  congr 1
  omega

/-- The ring moves on by one line. -/
theorem scroll_back (h : m.Valid) (hs : Shows m fg base dev con) {back : Buffer UInt8}
    (hback : dev.backBuffer = some back) : Shows m fg base (fbScroll dev) (con.scroll m) := by
  have hr := hs.ring (by simp [hback])
  have hstart : dev.backBufferStart < m.lines := hs.maxHeight ▸ hr.start
  have hlt := h.lines_lt
  have hle := @ModeInfo.Valid.lines_le m
  have hoff : u32 (dev.backBufferStart * 13 * m.width * m.depth) / 8 =
      dev.backBufferStart * (13 * m.rowBytes) := by
    have hbits := h.bits_lt (by omega : dev.backBufferStart * 13 ≤ m.height)
    rw [u32_of_lt (by omega), h.rowBytes_eq, ModeInfo.rowBytes]
    ring
  have hnext : u32 (dev.backBufferStart + 1) = dev.backBufferStart + 1 := u32_of_lt (by omega)
  simp only [fbScroll, hback]
  refine { hs with text := ?_, around := hs.around, ring := ?_ }
  · intro q hq j hj c hc
    have hold := hs.text (q + 1)
    simp only [Device.shown, hback, hs.mode, hs.maxHeight] at hold
    simp only [Device.shown, fontHeight, hs.mode, hs.maxHeight, hs.background, hoff, hnext,
      ring_succ, Console.scroll]
    rw [clearLine_cell h hs.mode _ _ hj hc]
    by_cases hlast : q + 1 < m.lines
    · have hne : (dev.backBufferStart + (q + 1)) % m.lines ≠ dev.backBufferStart := by
        have hzero : (dev.backBufferStart + (q + 1)) % m.lines =
            dev.backBufferStart % m.lines ↔ q + 1 = 0 := ring_inj hstart hlast h.lines_pos
        rw [Nat.mod_eq_of_lt hstart] at hzero
        exact fun heq => absurd (hzero.mp heq) (by omega)
      rw [if_neg hne, if_pos hlast]
      exact hold hlast j hj c hc
    · have heq : (dev.backBufferStart + (q + 1)) % m.lines = dev.backBufferStart := by
        rw [show q + 1 = m.lines by omega, Nat.add_mod_right, Nat.mod_eq_of_lt hstart]
      rw [if_pos heq, if_neg hlast]
  · intro _
    constructor
    case start => exact Nat.mod_lt _ (hs.maxHeight ▸ h.lines_pos)
    case dirtyStart => rfl
    case dirtyEnd => exact le_rfl
    case unmoved => exact fun hlt => absurd hlt (lt_irrefl _)
    case clean => exact fun q h₁ h₂ => absurd (lt_of_lt_of_le h₂ h₁) (lt_irrefl _)

end Ring

/-- Rows of `W` bytes, moved up by `d` rows one after the other. -/
theorem moveRows_apply {S W d : ℕ} (hW : W ≤ S) (b : Buffer UInt8) (n x : ℕ) :
    (∀ r < n, ∀ c < W, x = r * S + c →
      b.loop n (fun r b => b.copyUp (r * S) (r * S + d * S) W) x = b (x + d * S)) ∧
    ((∀ r < n, ∀ c < W, x ≠ r * S + c) →
      b.loop n (fun r b => b.copyUp (r * S) (r * S + d * S) W) x = b x) := by
  induction n generalizing x with
  | zero => exact ⟨fun r hr => absurd hr (Nat.not_lt_zero r), fun _ => rfl⟩
  | succ n ih =>
    simp only [Buffer.loop]
    rw [Buffer.copyUp_apply _ (Nat.le_add_right _ _)]
    constructor
    · rintro r hr c hc rfl
      rcases Nat.lt_succ_iff_lt_or_eq.mp hr with hr | rfl
      · have hlt : (r + 1) * S ≤ n * S := Nat.mul_le_mul_right _ hr
        rw [Nat.succ_mul] at hlt
        rw [if_neg (by omega)]
        exact (ih _).1 r hr c hc rfl
      · rw [if_pos (by omega), Nat.add_sub_cancel_left]
        -- the row that is read has not been written yet
        refine ((ih _).2 ?_).trans ?_
        · intro r' hr' c' hc' heq
          rw [← Nat.add_mul] at heq
          have := (row_inj (by omega) (by omega) heq).1
          omega
        · congr 1
          omega
    · intro hout
      have hn : ¬ (n * S ≤ x ∧ x < n * S + W) := by
        intro hx
        exact hout n (Nat.lt_succ_self n) (x - n * S) (by omega) (by omega)
      rw [if_neg hn]
      exact (ih x).2 fun r hr => hout r (Nat.lt_succ_of_lt hr)

section Front

variable {m : ModeInfo} {fg : UInt32} {base : Buffer UInt8} {dev : Device} {con : Console}

/-- The text after a scroll in place, and what is around it. -/
def Moved (m : ModeInfo) (b b' : Buffer UInt8) : Prop :=
  (∀ q < m.lines, ∀ j < 13, ∀ c < m.rowBytes, b' (cell m.bytesPerScanline q j c) =
    if q + 1 < m.lines then b (cell m.bytesPerScanline (q + 1) j c) else 0) ∧
  ∀ x, ¬ Text m x → b' x = b x

theorem lines_succ (h : m.Valid) : ∃ l, m.lines = l + 1 :=
  ⟨m.lines - 1, by have := h.lines_pos; omega⟩

/-- With padding, row by row. -/
theorem scrollFront_rows (h : m.Valid) (hm : dev.curMode = m) (hM : dev.maxHeight = m.lines)
    (hb : dev.background = 0) (hcontig : dev.contigScanlines = false) :
    Moved m dev.frontBuffer (scrollFront dev) := by
  have hW := h.rowBytes_le
  have hlt := h.lines_lt
  have hle := @ModeInfo.Valid.lines_le m
  obtain ⟨l, hl⟩ := lines_succ h
  have hlast : Word.sub 32 m.lines 1 = l := by
    rw [Word.sub_of_le (by omega) (by omega), hl]
    rfl
  have hline : u32 (13 * m.bytesPerScanline) = 13 * m.bytesPerScanline :=
    u32_of_lt (by have := h.row_lt h.height; omega)
  have hrow : m.width * m.depth / 8 = m.rowBytes := h.rowBytes_eq m.width
  have hnest := Buffer.loop_nest 13 l (fun r (b : Buffer UInt8) =>
    b.copyUp (r * m.bytesPerScanline) (r * m.bytesPerScanline + 13 * m.bytesPerScanline)
      m.rowBytes) dev.frontBuffer
  have hmove := moveRows_apply (d := 13) hW dev.frontBuffer (13 * l)
  have hclear : Buffer.Writes (Buffer.loop 13 fun j =>
      memsetPixel dev ((13 * l + j) * m.bytesPerScanline) 0 m.width) fun x v =>
      ∃ j < 13, ∃ c < m.rowBytes, x = cell m.bytesPerScanline l j c ∧ v = 0 :=
    Buffer.Writes.loop fun j _ => memsetPixel_writes h hm _ _
  simp only [scrollFront, hcontig, hm, hM, hb, hlast, fontHeight, hline, hrow, hnest,
    Bool.false_eq_true, if_false]
  constructor
  · intro q hq j hj c hc
    by_cases hlast : q + 1 < m.lines
    · rw [if_pos hlast, hclear.frame]
      · rw [(hmove (cell m.bytesPerScanline q j c)).1 (13 * q + j) (by omega) c hc rfl]
        refine congrArg dev.frontBuffer ?_
        unfold cell
        ring
      · rintro v ⟨j', hj', c', hc', heq, rfl⟩
        have := (cell_inj (by omega) (by omega) hj hj' heq).1
        omega
    · rw [if_neg hlast]
      refine hclear.value _ ⟨j, hj, c, hc, ?_, rfl⟩ ?_
      · rw [show q = l by omega]
      · rintro v ⟨-, -, -, -, -, rfl⟩
        rfl
  · intro x hx
    rw [hclear.frame]
    · refine (hmove x).2 ?_
      intro r hr c hc heq
      refine hx ⟨r / 13, by omega, r % 13, Nat.mod_lt _ (by decide), c, hc, ?_⟩
      rw [heq, cell, Nat.div_add_mod]
    · rintro v ⟨j, hj, c, hc, rfl, rfl⟩
      exact hx ⟨l, by omega, j, hj, c, hc, rfl⟩

/-- Without padding, all rows of the screen at once. -/
theorem scrollFront_contig (h : m.Valid) (hm : dev.curMode = m) (hb : dev.background = 0)
    (hS : m.bytesPerScanline = m.rowBytes) (hcontig : dev.contigScanlines = true)
    (hbelow : BlankBelow m dev.frontBuffer) : Moved m dev.frontBuffer (scrollFront dev) := by
  have hpos := h.rowBytes_pos
  have hheight := h.height
  have hline : u32 (13 * m.bytesPerScanline) = 13 * m.rowBytes := by
    rw [u32_of_lt (by have := h.row_lt h.height; omega), hS]
  have hmoved : m.width * (m.height - 13) * m.depth / 8 = (m.height - 13) * m.rowBytes := by
    rw [h.rowBytes_eq, ModeInfo.rowBytes]
    ring
  have hclear := memsetPixel_writes h hm ((m.height - 13) * m.rowBytes) (m.width * 13)
  have hsize : m.width * 13 * m.pixelSize = 13 * m.rowBytes := by
    unfold ModeInfo.rowBytes
    ring
  rw [hsize] at hclear
  -- the sizes as atoms: what moves, what stays and the text
  have hall : (m.height - 13) * m.rowBytes + 13 * m.rowBytes = m.height * m.rowBytes := by
    rw [← Nat.add_mul, Nat.sub_add_cancel hheight]
  have htext : m.lines * (13 * m.rowBytes) ≤ m.height * m.rowBytes := by
    rw [← Nat.mul_assoc, Nat.mul_comm m.lines]
    exact Nat.mul_le_mul_right _ ModeInfo.Valid.lines_le
  have hrest : (m.height - 13) * m.rowBytes < m.lines * (13 * m.rowBytes) := by
    rw [← Nat.mul_assoc]
    refine Nat.mul_lt_mul_of_pos_right ?_ hpos
    unfold ModeInfo.lines
    omega
  have hshift : ∀ q j c, 13 * m.rowBytes + cell m.rowBytes q j c = cell m.rowBytes (q + 1) j c := by
    intro q j c
    rw [Nat.add_comm q, cell_add, Nat.one_mul]
  simp only [scrollFront, hcontig, hm, hb, fontHeight, hline, hmoved, if_true]
  unfold Moved
  rw [hS]
  constructor
  · intro q hq j hj c hc
    have hupper : cell m.rowBytes q j c < (q + 1) * (13 * m.rowBytes) := cell_lt hj hc
    have hlines : (q + 1) * (13 * m.rowBytes) ≤ m.lines * (13 * m.rowBytes) :=
      Nat.mul_le_mul_right _ hq
    by_cases hx : cell m.rowBytes q j c < (m.height - 13) * m.rowBytes
    · rw [hclear.frame _ (by rintro v ⟨k, -, heq, -⟩; omega),
        Buffer.copyUp_apply _ (Nat.zero_le _), if_pos (by omega), Nat.sub_zero, hshift]
      split_ifs with hlast
      · rfl
      · have hlow : m.lines * (13 * m.rowBytes) ≤ cell m.rowBytes (q + 1) j c := by
          rw [show m.lines = q + 1 by omega]
          exact le_cell
        refine hbelow hS _ hlow ?_
        rw [← hshift]
        omega
    · have hlast : ¬ q + 1 < m.lines := by
        intro hlast
        have : (q + 1 + 1) * (13 * m.rowBytes) ≤ m.lines * (13 * m.rowBytes) :=
          Nat.mul_le_mul_right _ hlast
        rw [Nat.succ_mul] at this
        omega
      rw [if_neg hlast]
      refine hclear.value _ ⟨cell m.rowBytes q j c - (m.height - 13) * m.rowBytes, by omega,
        by omega, rfl⟩ ?_
      rintro v ⟨-, -, -, rfl⟩
      rfl
  · intro x hx
    have hlow : m.lines * (13 * m.rowBytes) ≤ x := by
      by_contra hlt
      obtain ⟨q, hq, j, hj, c, hc, rfl⟩ := (lt_lines_iff hpos).mp (not_le.mp hlt)
      exact hx ⟨q, hq, j, hj, c, hc, by rw [hS]⟩
    by_cases hin : x < m.height * m.rowBytes
    · rw [hbelow hS x hlow hin]
      refine hclear.value _ ⟨x - (m.height - 13) * m.rowBytes, by omega, by omega, rfl⟩ ?_
      rintro v ⟨-, -, -, rfl⟩
      rfl
    · rw [hclear.frame _ (by rintro v ⟨k, hk, heq, -⟩; omega),
        Buffer.copyUp_apply _ (Nat.zero_le _), if_neg (by omega)]

/-- The front buffer scrolls as the text does. -/
theorem scroll_front (h : m.Valid) (hs : Shows m fg base dev con) (hbelow : BlankBelow m base)
    (hback : dev.backBuffer = none) : Shows m fg base (fbScroll dev) (con.scroll m) := by
  have hmoved : Moved m dev.frontBuffer (scrollFront dev) := by
    by_cases hS : m.bytesPerScanline = m.rowBytes
    · refine scrollFront_contig h hs.mode hs.background hS (by simp [hs.contig, hS]) ?_
      intro _ x h₁ h₂
      rw [hs.around x ?_]
      · exact hbelow hS x h₁ h₂
      · rintro ⟨q, hq, j, hj, c, hc, rfl⟩
        rw [hS] at h₁
        have hlt : cell m.rowBytes q j c < (q + 1) * (13 * m.rowBytes) := cell_lt hj hc
        have hle : (q + 1) * (13 * m.rowBytes) ≤ m.lines * (13 * m.rowBytes) :=
          Nat.mul_le_mul_right _ hq
        omega
    · exact scrollFront_rows h hs.mode hs.maxHeight hs.background (by simp [hs.contig, hS])
  simp only [fbScroll, hback]
  refine { hs with text := ?_, around := ?_, ring := ?_ }
  · intro q hq j hj c hc
    have hold := hs.text (q + 1)
    simp only [Device.shown, hback, hs.mode] at hold
    simp only [Device.shown, hs.mode, Console.scroll, hmoved.1 q hq j hj c hc]
    split_ifs with hlast
    · exact hold hlast j hj c hc
    · rfl
  · intro x hx
    exact (hmoved.2 x hx).trans (hs.around x hx)
  · intro hsome
    simp at hsome

end Front

theorem scroll_shows {m : ModeInfo} {fg : UInt32} {base : Buffer UInt8} {dev : Device}
    {con : Console} (h : m.Valid) (hs : Shows m fg base dev con) (hbelow : BlankBelow m base) :
    Shows m fg base (fbScroll dev) (con.scroll m) := by
  cases hback : dev.backBuffer with
  | none => exact scroll_front h hs hbelow hback
  | some back => exact scroll_back h hs hback

end Gandr.Fb

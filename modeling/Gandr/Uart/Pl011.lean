import Mathlib.Algebra.Order.Round
import Mathlib.Tactic

/-! The configuration of `bal/device/uart/arm_pl011/arm_pl011.c`. The baud rate
divisor is a fixed point number with six fractional bits, held in two registers;
the driver computes it in 32 bits. -/

namespace Gandr.Uart.Pl011

inductive Parity where
  | none
  | odd
  | even
  deriving DecidableEq

inductive FlowControl where
  | none
  | rtsCts
  | rtrCts
  deriving DecidableEq

/-- `struct gd_uart_config`. -/
structure Config where
  baud : UInt32
  bits : UInt8
  parity : Parity
  stopBits : UInt8
  flowControl : FlowControl

/-- What `pl011_set_config` reads of `arm_pl011_dev`. -/
structure Dev where
  brgClock : UInt32

/-- The registers that are written. -/
inductive Reg where
  | ibrd
  | fbrd
  | lcrH
  | cr
  | imsc
  | dmacr
  deriving DecidableEq

def crUarten : UInt32 := (1 : UInt32) <<< 0
def crTxe : UInt32 := (1 : UInt32) <<< 8
def crRxe : UInt32 := (1 : UInt32) <<< 9
def crRts : UInt32 := (1 : UInt32) <<< 11
def crRtsEn : UInt32 := (1 : UInt32) <<< 14
def crCtsEn : UInt32 := (1 : UInt32) <<< 15

def lcrHPen : UInt32 := (1 : UInt32) <<< 1
def lcrHEps : UInt32 := (1 : UInt32) <<< 2
def lcrHStp2 : UInt32 := (1 : UInt32) <<< 3
def lcrHFen : UInt32 := (1 : UInt32) <<< 4
def lcrHWlenShift : UInt32 := 5

def einval : ℕ := 22

/-- How a call ends, and the register writes it makes. -/
inductive Outcome where
  | returned (rv : ℕ) (writes : List (Reg × UInt32))
  | divisionByZero
  deriving DecidableEq

/-- `WLEN`, for the lengths there are. -/
def wlen (bits : UInt8) : Option UInt32 :=
  if bits = 5 then some 0
  else if bits = 6 then some 1
  else if bits = 7 then some 2
  else if bits = 8 then some 3
  else none

def parityBits : Parity → UInt32
  | .none => 0
  | .odd => lcrHPen
  | .even => lcrHPen ||| lcrHEps

def stopBit (stopBits : UInt8) : Option UInt32 :=
  if stopBits = 1 then some 0
  else if stopBits = 2 then some lcrHStp2
  else none

def flowBits : FlowControl → UInt32
  | .none => 0
  | .rtsCts => crCtsEn ||| crRts
  | .rtrCts => crCtsEn ||| crRtsEn

def pl011SetConfig (dev : Dev) (cfg : Config) : Outcome :=
  let divisor := cfg.baud * 16 * 128
  if divisor = 0 then .divisionByZero
  else
    let brg := (dev.brgClock / divisor + 1) / 2
    let cr := crUarten ||| crRxe ||| crTxe
    match wlen cfg.bits with
    | none => .returned einval []
    | some len =>
      match stopBit cfg.stopBits with
      | none => .returned einval []
      | some stop =>
        let lcrh := lcrHFen ||| len <<< lcrHWlenShift ||| parityBits cfg.parity ||| stop
        .returned 0
          [(.cr, 0),
            (.ibrd, brg >>> 6),
            (.fbrd, brg &&& 0x3F),
            (.lcrH, lcrh),
            (.cr, cr ||| flowBits cfg.flowControl)]

def defaultConfig : Config where
  baud := 115200
  bits := 8
  parity := .none
  stopBits := 1
  flowControl := .none

/-- `arm_pl011_init`, where the control register reads `cr`. -/
def armPl011Init (dev : Dev) (cr : UInt32) : Outcome :=
  let quiet := [(.dmacr, 0), (.imsc, 0x7FF)]
  if cr &&& crUarten = 0 then
    match pl011SetConfig dev defaultConfig with
    | .returned _ writes => .returned 0 (quiet ++ writes)
    | .divisionByZero => .divisionByZero
  else .returned 0 quiet

/-- The frame formats that `pl011_set_config` accepts. -/
def ValidFrame (cfg : Config) : Prop :=
  5 ≤ cfg.bits ∧ cfg.bits ≤ 8 ∧ (cfg.stopBits = 1 ∨ cfg.stopBits = 2)

instance (cfg : Config) : Decidable (ValidFrame cfg) := inferInstanceAs (Decidable (_ ∧ _ ∧ _))

/-- The exact quotient in units of 1/64, to the nearest integer. -/
def exactDivisor (brgClock baud : ℕ) : ℤ := round ((64 * brgClock : ℚ) / (16 * baud))

/-- What was last written to a register. -/
def lastWrite (writes : List (Reg × UInt32)) (reg : Reg) : Option UInt32 :=
  (writes.reverse.find? fun w => w.1 = reg).map Prod.snd

/-- The call succeeds and leaves this divisor in the two registers. -/
def Programs (o : Outcome) (divisor : ℤ) : Prop :=
  ∃ writes ibrd fbrd, o = .returned 0 writes ∧ lastWrite writes .ibrd = some ibrd ∧
    lastWrite writes .fbrd = some fbrd ∧ (64 * ibrd.toNat + fbrd.toNat : ℤ) = divisor

/-- The inputs on which the 32-bit product `baud * 16 * 128` makes up for the wrong
scale: with `j` for `baud` modulo 2^21, the clock divided by `4096 * j` rounds to
the exact divisor. -/
def ScaleWraps (brgClock baud : ℕ) : Prop :=
  let j : ℕ := baud % 2^21
  let r := exactDivisor brgClock baud
  0 < j ∧ (2 * r - 1) * (2048 * j) ≤ brgClock ∧ brgClock < (2 * r + 1) * (2048 * j)

section Divisor

variable {clk baud : ℕ}

/-- Rounding by a quotient of integers. -/
theorem exactDivisor_eq (clk : ℕ) (hbaud : 1 ≤ baud) :
    exactDivisor clk baud = ((8 * clk + baud) / (2 * baud) : ℕ) := by
  have hpos : (baud : ℚ) ≠ 0 := by
    have : baud ≠ 0 := by omega
    exact_mod_cast this
  have hsum : (64 * clk : ℚ) / (16 * baud) + 1 / 2 =
      ((8 * clk + baud : ℕ) : ℚ) / ((2 * baud : ℕ) : ℚ) := by
    push_cast
    field_simp
    ring
  rw [exactDivisor, round_eq, hsum, Rat.floor_natCast_div_natCast]
  rfl

/-- The divisor of the driver, for a divisor `d` of the clock. -/
theorem brg_eq_iff {d r : ℕ} (hd : 0 < d) (hr : 1 ≤ r) :
    (clk / d + 1) / 2 = r ↔ (2 * r - 1) * d ≤ clk ∧ clk < (2 * r + 1) * d := by
  have hlow : 2 * r - 1 ≤ clk / d ↔ (2 * r - 1) * d ≤ clk := Nat.le_div_iff_mul_le hd
  have hhigh : clk / d < 2 * r + 1 ↔ clk < (2 * r + 1) * d := Nat.div_lt_iff_lt_mul hd
  rw [← hlow, ← hhigh]
  omega

theorem toNat_divisor (b : UInt32) : (b * 16 * 128).toNat = 2048 * (b.toNat % 2^21) := by
  rw [UInt32.toNat_mul, UInt32.toNat_mul]
  simp only [UInt32.reduceToNat]
  omega

theorem toNat_brg {c d : UInt32} (hd : 2 ≤ d.toNat) :
    ((c / d + 1) / 2).toNat = (c.toNat / d.toNat + 1) / 2 := by
  have hlt : c.toNat / d.toNat + 1 < 2^32 := by
    have h₁ := Nat.div_le_div_left (a := c.toNat) hd (by decide)
    have h₂ := c.toNat_lt
    omega
  rw [UInt32.toNat_div, UInt32.toNat_add, UInt32.toNat_div, UInt32.toNat_one,
    Nat.mod_eq_of_lt hlt]
  rfl

/-- The two registers hold the quotient and the remainder by 64. -/
theorem toNat_split (b : UInt32) : 64 * (b >>> 6).toNat + (b &&& 0x3F).toNat = b.toNat := by
  have hlow : (b &&& 0x3F).toNat = b.toNat % 2^6 := by
    rw [UInt32.toNat_and]
    exact Nat.and_two_pow_sub_one_eq_mod b.toNat 6
  have hhigh : (b >>> 6).toNat = b.toNat / 2^6 := by
    rw [UInt32.toNat_shiftRight, Nat.shiftRight_eq_div_pow]
    rfl
  rw [hlow, hhigh]
  exact Nat.div_add_mod _ _

theorem wlen_isSome {bits : UInt8} (h₁ : 5 ≤ bits) (h₂ : bits ≤ 8) : ∃ len, wlen bits = some len := by
  have h₁ := UInt8.le_iff_toNat_le.mp h₁
  have h₂ := UInt8.le_iff_toNat_le.mp h₂
  simp only [UInt8.reduceToNat] at h₁ h₂
  unfold wlen
  simp only [← UInt8.toNat_inj, UInt8.reduceToNat]
  split_ifs
  · exact ⟨_, rfl⟩
  · exact ⟨_, rfl⟩
  · exact ⟨_, rfl⟩
  · exact ⟨_, rfl⟩
  · omega

theorem stopBit_isSome {stopBits : UInt8} (h : stopBits = 1 ∨ stopBits = 2) :
    ∃ stop, stopBit stopBits = some stop := by
  rcases h with rfl | rfl
  · exact ⟨_, rfl⟩
  · exact ⟨_, rfl⟩

end Divisor

section SetConfig

variable {dev : Dev} {cfg : Config}

theorem pl011SetConfig_wraps (hj : cfg.baud.toNat % 2^21 = 0) :
    pl011SetConfig dev cfg = .divisionByZero := by
  have hzero : cfg.baud * 16 * 128 = 0 := by
    apply UInt32.toNat_inj.mp
    rw [toNat_divisor, hj]
    rfl
  simp only [pl011SetConfig, hzero, if_true]

/-- For a valid frame the registers hold the quotient of the driver. -/
theorem programs_iff {r : ℕ} (hframe : ValidFrame cfg) (hj : 0 < cfg.baud.toNat % 2^21) :
    Programs (pl011SetConfig dev cfg) r ↔
      (dev.brgClock.toNat / (2048 * (cfg.baud.toNat % 2^21)) + 1) / 2 = r := by
  obtain ⟨len, hlen⟩ := wlen_isSome hframe.1 hframe.2.1
  obtain ⟨stop, hstop⟩ := stopBit_isSome hframe.2.2
  have hdiv := toNat_divisor cfg.baud
  have hne : cfg.baud * 16 * 128 ≠ 0 := by
    intro hz
    rw [hz, UInt32.toNat_zero] at hdiv
    omega
  have hbrg := toNat_brg (c := dev.brgClock) (d := cfg.baud * 16 * 128) (by omega)
  rw [← hdiv, ← hbrg]
  simp only [pl011SetConfig, hne, if_false, hlen, hstop]
  have hsplit := toNat_split ((dev.brgClock / (cfg.baud * 16 * 128) + 1) / 2)
  constructor
  · rintro ⟨writes, ibrd, fbrd, ho, hi, hf, hr⟩
    cases ho
    cases hi
    cases hf
    rw [← hsplit]
    exact_mod_cast hr
  · intro hr
    refine ⟨_, _, _, rfl, rfl, rfl, ?_⟩
    rw [← hsplit] at hr
    exact_mod_cast hr

end SetConfig

section Exact

variable {clk baud : ℕ}

theorem scaleWraps_iff {r : ℕ} (hr : exactDivisor clk baud = r)
    (hpos : 1 ≤ r) :
    ScaleWraps clk baud ↔
      0 < baud % 2^21 ∧ (clk / (2048 * (baud % 2^21)) + 1) / 2 = r := by
  unfold ScaleWraps
  rw [hr]
  refine and_congr_right fun hj => ?_
  rw [brg_eq_iff (by omega) hpos]
  have hsub : (2 * r - 1 : ℤ) = ((2 * r - 1 : ℕ) : ℤ) := by omega
  rw [hsub]
  norm_cast

/-- Below 2^21 nothing wraps, and the scale is off by 2^14. -/
theorem scaleWraps_lt (hbaud : 1 ≤ baud) (hpos : 1 ≤ exactDivisor clk baud)
    (h : ScaleWraps clk baud) : 2^21 < baud := by
  by_contra hle
  obtain ⟨hj, hlow, -⟩ := h
  have hsmall : baud % 2^21 = baud := by omega
  rw [hsmall] at hlow
  rw [exactDivisor_eq clk hbaud] at hlow hpos
  have hquot := Nat.lt_mul_div_succ (8 * clk + baud) (b := 2 * baud) (by omega)
  generalize (8 * clk + baud) / (2 * baud) = r at hlow hpos hquot
  have hr : 1 ≤ r := by omega
  have hp : baud ≤ r * baud := Nat.le_mul_of_pos_left baud hr
  have hlow' : 4096 * (r * baud) ≤ clk + 2048 * baud := by
    zify
    linarith
  have hquot' : 8 * clk + baud < 2 * (r * baud) + 2 * baud := by linarith
  omega

variable {dev : Dev} {cfg : Config}

theorem programs_exact_iff (hbaud : 1 ≤ cfg.baud.toNat) (hframe : ValidFrame cfg)
    (hpos : 1 ≤ exactDivisor dev.brgClock.toNat cfg.baud.toNat) :
    Programs (pl011SetConfig dev cfg) (exactDivisor dev.brgClock.toNat cfg.baud.toNat) ↔
      ScaleWraps dev.brgClock.toNat cfg.baud.toNat := by
  have hr := exactDivisor_eq dev.brgClock.toNat hbaud
  rw [scaleWraps_iff hr (by omega), hr]
  by_cases hj : cfg.baud.toNat % 2^21 = 0
  · refine iff_of_false ?_ (by omega)
    rintro ⟨writes, ibrd, fbrd, ho, -⟩
    rw [pl011SetConfig_wraps hj] at ho
    cases ho
  · rw [programs_iff hframe (by omega)]
    exact (and_iff_right (by omega)).symm

/-- No clock gives the device the rate it is set up with. -/
theorem armPl011Init_misses {cr : UInt32} (hcr : cr &&& crUarten = 0)
    (hpos : 1 ≤ exactDivisor dev.brgClock.toNat 115200) :
    ¬ Programs (armPl011Init dev cr) (exactDivisor dev.brgClock.toNat 115200) := by
  rintro ⟨writes, ibrd, fbrd, ho, hi, hf, hr⟩
  have hset : Programs (pl011SetConfig dev defaultConfig)
      (exactDivisor dev.brgClock.toNat 115200) := by
    simp only [armPl011Init, hcr, if_true] at ho
    cases ho
    exact ⟨_, ibrd, fbrd, rfl, hi, hf, hr⟩
  have hwraps : ScaleWraps dev.brgClock.toNat 115200 :=
    (@programs_exact_iff dev defaultConfig (by decide) (by decide) hpos).mp hset
  exact absurd (scaleWraps_lt (by decide) hpos hwraps) (by decide)

end Exact

/-- For every clock, every baud rate and every valid frame whose exact divisor
fits the registers: the call programs it if and only if the wrapped product makes
up for the wrong scale, which needs a baud rate above 2^21. -/
theorem pl011SetConfig_divisor_iff (dev : Dev) (cfg : Config) (hbaud : 1 ≤ cfg.baud.toNat)
    (hframe : ValidFrame cfg)
    (hrange : 64 ≤ exactDivisor dev.brgClock.toNat cfg.baud.toNat ∧
      exactDivisor dev.brgClock.toNat cfg.baud.toNat ≤ 2^22 - 1) :
    (Programs (pl011SetConfig dev cfg) (exactDivisor dev.brgClock.toNat cfg.baud.toNat) ↔
      ScaleWraps dev.brgClock.toNat cfg.baud.toNat) ∧
    (ScaleWraps dev.brgClock.toNat cfg.baud.toNat → 2^21 < cfg.baud.toNat) := by
  have hpos : 1 ≤ exactDivisor dev.brgClock.toNat cfg.baud.toNat := by omega
  exact ⟨programs_exact_iff hbaud hframe hpos, scaleWraps_lt hbaud hpos⟩

/-- One of the few inputs with the right divisor: 2^28 Hz and 2097280 baud. -/
theorem pl011_2097280_baud :
    Programs (pl011SetConfig ⟨0x10000000⟩ { defaultConfig with baud := 2097280 })
      (exactDivisor 0x10000000 2097280) := by
  have hexact : exactDivisor 0x10000000 2097280 = 512 := exactDivisor_eq _ (by decide)
  refine (pl011SetConfig_divisor_iff ⟨0x10000000⟩ { defaultConfig with baud := 2097280 }
    (by decide) (by decide) ?_).1.mpr ?_
  · change 64 ≤ exactDivisor 0x10000000 2097280 ∧ exactDivisor 0x10000000 2097280 ≤ 2^22 - 1
    rw [hexact]
    decide
  · change ScaleWraps 0x10000000 2097280
    unfold ScaleWraps
    rw [hexact]
    decide

/-- With a clock of 24 MHz and 115200 baud the exact divisor is 833, and zero is
programmed. -/
theorem pl011_115200_baud :
    exactDivisor 24000000 115200 = 833 ∧ ValidFrame defaultConfig ∧
      Programs (pl011SetConfig ⟨24000000⟩ defaultConfig) 0 ∧
      ¬ Programs (pl011SetConfig ⟨24000000⟩ defaultConfig) 833 := by
  have hbrg (r : ℕ) : Programs (pl011SetConfig ⟨24000000⟩ defaultConfig) r ↔ 0 = r :=
    programs_iff (by decide) (by decide)
  refine ⟨exactDivisor_eq _ (by decide), by decide, (hbrg 0).mpr rfl, ?_⟩
  intro h
  exact absurd ((hbrg 833).mp h) (by decide)

end Gandr.Uart.Pl011

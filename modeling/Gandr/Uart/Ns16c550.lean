import Gandr.Lib.Run

/-! Transmission of `bal/device/uart/ns16c550/ns16c550.c`. The driver counts the
bytes that the FIFO has room for, and starts again from the size of the FIFO when
it finds the transmitter empty; meanwhile the transmitter takes bytes from the
FIFO as it likes. -/

namespace Gandr.Uart.Ns16c550

/-- What `ns16c550_init` and `write` use of `ns16c550_dev`. -/
structure Dev where
  fifoSize : UInt16
  fifoSpace : UInt16
  regWidth : UInt8
  deriving DecidableEq

def lsrTxSrEmpty : UInt8 := (1 : UInt8) <<< 6

def fcrFifoEn : UInt8 := (1 : UInt8) <<< 0
def fcrRxFifoClear : UInt8 := (1 : UInt8) <<< 1
def fcrTxFifoClear : UInt8 := (1 : UInt8) <<< 2

/-- The transmitter. -/
structure Transmitter where
  /-- bytes that the FIFO can hold -/
  size : ℕ
  fifo : List UInt8
  shift : Option UInt8
  /-- bytes that have gone out -/
  line : List UInt8
  /-- bytes that were written to a full FIFO -/
  lost : List UInt8
  deriving DecidableEq

namespace Transmitter

def writeFcr (u : Transmitter) (b : UInt8) : Transmitter :=
  if b &&& fcrTxFifoClear ≠ 0 then { u with fifo := [] } else u

def writeData (u : Transmitter) (b : UInt8) : Transmitter :=
  if u.fifo.length < u.size then { u with fifo := u.fifo ++ [b] }
  else { u with lost := u.lost ++ [b] }

/-- Values of `UART_LSR`: the bit is set only if the transmitter is empty. -/
def Reads (u : Transmitter) (lsr : UInt8) : Prop :=
  lsr &&& lsrTxSrEmpty ≠ 0 → u.fifo = [] ∧ u.shift = none

instance (u : Transmitter) (lsr : UInt8) : Decidable (u.Reads lsr) := inferInstanceAs (Decidable (_ → _))

/-- The next byte of the FIFO goes into the shift register. -/
def load (u : Transmitter) : Option Transmitter :=
  match u.fifo, u.shift with
  | b :: rest, none => some { u with fifo := rest, shift := some b }
  | _, _ => none

/-- The byte in the shift register goes out. -/
def send (u : Transmitter) : Option Transmitter :=
  match u.shift with
  | some b => some { u with shift := none, line := u.line ++ [b] }
  | none => none

/-- The bytes in the order in which they go out. -/
def bytes (u : Transmitter) : List UInt8 := u.line ++ u.shift.toList ++ u.fifo

end Transmitter

/-- The widths for which `gio_write_index` and `gio_read_index` return. -/
def Accessible (width : UInt8) : Prop := width = 8 ∨ width = 16 ∨ width = 32

instance (width : UInt8) : Decidable (Accessible width) := inferInstanceAs (Decidable (_ ∨ _ ∨ _))

def ns16c550Init (dev : Dev) (u : Transmitter) : Option Transmitter :=
  if Accessible dev.regWidth then
    some (u.writeFcr (fcrFifoEn ||| fcrTxFifoClear ||| fcrRxFifoClear))
  else none

/-- Where the driver is: outside of `write`, before a read of `UART_LSR`, or at
the head of the second loop. -/
inductive Point where
  | idle
  | poll (buf : List UInt8)
  | fill (buf : List UInt8) (i : ℕ)
  deriving DecidableEq

/-- A call of `write` that has returned. -/
structure Call where
  buf : List UInt8
  count : ℕ
  deriving DecidableEq

structure State where
  dev : Dev
  uart : Transmitter
  point : Point
  calls : List Call
  deriving DecidableEq

def start (dev : Dev) (u : Transmitter) : State := { dev := dev, uart := u, point := .idle, calls := [] }

/-- A round of the first loop. -/
def writePoll (s : State) (buf : List UInt8) (lsr : UInt8) : State :=
  let dev := if lsr &&& lsrTxSrEmpty ≠ 0 then { s.dev with fifoSpace := s.dev.fifoSize } else s.dev
  { s with dev := dev, point := if dev.fifoSpace = 0 then .poll buf else .fill buf 0 }

/-- A round of the second loop, or the return after it. -/
def writeFill (s : State) (buf : List UInt8) (i : ℕ) : State :=
  if h : i < buf.length ∧ s.dev.fifoSpace ≠ 0 then
    { s with
      uart := s.uart.writeData (buf.get ⟨i, h.1⟩)
      dev := { s.dev with fifoSpace := s.dev.fifoSpace - 1 }
      point := .fill buf (i + 1) }
  else { s with point := .idle, calls := s.calls ++ [{ buf := buf, count := i }] }

/-- The transmitter and the driver take turns in any order. -/
inductive Action where
  | load
  | send
  | call (buf : List UInt8)
  | poll (lsr : UInt8)
  | fill
  deriving DecidableEq

def step (s : State) : Action → Option State
  | .load => s.uart.load.map fun u => { s with uart := u }
  | .send => s.uart.send.map fun u => { s with uart := u }
  | .call buf => match s.point with
    | .idle => some { s with point := .poll buf }
    | _ => none
  | .poll lsr => match s.point with
    | .poll buf => if s.uart.Reads lsr then some (writePoll s buf lsr) else none
    | _ => none
  | .fill => match s.point with
    | .fill buf i => some (writeFill s buf i)
    | _ => none

def run (s : State) (actions : List Action) : Option State := actions.foldlM step s

section Drains

variable {u u' : Transmitter}

theorem load_cases (h : u.load = some u') :
    ∃ b rest, u.fifo = b :: rest ∧ u.shift = none ∧ u' = { u with fifo := rest, shift := some b } := by
  unfold Transmitter.load at h
  split at h
  · rename_i b rest hfifo hshift
    exact ⟨b, rest, hfifo, hshift, (Option.some.inj h).symm⟩
  · cases h

theorem send_cases (h : u.send = some u') :
    ∃ b, u.shift = some b ∧ u' = { u with shift := none, line := u.line ++ [b] } := by
  unfold Transmitter.send at h
  split at h
  · rename_i b hshift
    exact ⟨b, hshift, (Option.some.inj h).symm⟩
  · cases h

/-- The transmitter on its own keeps its bytes in order, and gains room. -/
structure Drained (u u' : Transmitter) : Prop where
  size : u'.size = u.size
  lost : u'.lost = u.lost
  bytes : u'.bytes = u.bytes
  room : u'.fifo.length ≤ u.fifo.length

theorem load_drained (h : u.load = some u') : Drained u u' := by
  obtain ⟨b, rest, hfifo, hshift, rfl⟩ := load_cases h
  exact ⟨rfl, rfl, by simp [Transmitter.bytes, hfifo, hshift], by simp [hfifo]⟩

theorem send_drained (h : u.send = some u') : Drained u u' := by
  obtain ⟨b, hshift, rfl⟩ := send_cases h
  exact ⟨rfl, rfl, by simp [Transmitter.bytes, hshift], le_rfl⟩

theorem writeData_room {b : UInt8} (h : u.fifo.length < u.size) :
    u.writeData b = { u with fifo := u.fifo ++ [b] } := if_pos h

end Drains

/-- The bytes of a call that it says it has written. -/
def Call.sent (c : Call) : List UInt8 := c.buf.take c.count

/-- The bytes that the call in progress has written. -/
def Point.sent : Point → List UInt8
  | .idle => []
  | .poll _ => []
  | .fill buf i => buf.take i

/-- The bytes that all calls have written. -/
def State.sent (s : State) : List UInt8 := s.calls.flatMap Call.sent ++ s.point.sent

/-- The call in progress is in its buffer and has credit before its first byte. -/
def Point.Within (dev : Dev) : Point → Prop
  | .idle => True
  | .poll _ => True
  | .fill buf i => i ≤ buf.length ∧ i + dev.fifoSpace.toNat ≤ dev.fifoSize.toNat ∧
      (i = 0 → dev.fifoSpace ≠ 0)

/-- What a call returns: a count within its buffer and the FIFO, and not zero
unless the buffer is empty. -/
structure Call.Counted (dev : Dev) (c : Call) : Prop where
  inside : c.count ≤ c.buf.length
  fits : c.count ≤ dev.fifoSize.toNat
  progress : c.buf ≠ [] → 1 ≤ c.count

/-- The FIFO and the credit of the driver together are within the size of the
FIFO, no byte has been lost, and all bytes go out in the order of the calls. -/
structure Transmits (u : Transmitter) (dev : Dev) (s : State) : Prop where
  credit : s.uart.fifo.length + s.dev.fifoSpace.toNat ≤ s.dev.fifoSize.toNat
  lost : s.uart.lost = u.lost
  bytes : s.uart.bytes = u.bytes ++ s.sent
  calls : ∀ c ∈ s.calls, c.Counted dev

/-- The invariant of runs. -/
structure Inv (u : Transmitter) (dev : Dev) (s : State) : Prop extends Transmits u dev s where
  size : s.uart.size = dev.fifoSize.toNat
  fifoSize : s.dev.fifoSize = dev.fifoSize
  within : s.point.Within s.dev

section Steps

variable {u : Transmitter} {dev : Dev} {s s' : State}

theorem Inv.drained {u' : Transmitter} (h : Inv u dev s) (hd : Drained s.uart u') :
    Inv u dev { s with uart := u' } where
  credit := (Nat.add_le_add_right hd.room _).trans h.credit
  lost := hd.lost.trans h.lost
  bytes := hd.bytes.trans h.bytes
  calls := h.calls
  size := hd.size.trans h.size
  fifoSize := h.fifoSize
  within := h.within

theorem Inv.call (h : Inv u dev s) (hpoint : s.point = .idle) (buf : List UInt8) :
    Inv u dev { s with point := .poll buf } where
  credit := h.credit
  lost := h.lost
  bytes := by
    have hbytes := h.bytes
    rw [State.sent, hpoint] at hbytes
    exact hbytes
  calls := h.calls
  size := h.size
  fifoSize := h.fifoSize
  within := trivial

/-- The credit after a read of `UART_LSR`. -/
theorem writePoll_credit (h : Inv u dev s) (buf : List UInt8) {lsr : UInt8}
    (hreads : s.uart.Reads lsr) :
    s.uart.fifo.length + (writePoll s buf lsr).dev.fifoSpace.toNat ≤ s.dev.fifoSize.toNat := by
  unfold writePoll
  by_cases hlsr : lsr &&& lsrTxSrEmpty ≠ 0
  · obtain ⟨hfifo, -⟩ := hreads hlsr
    simp [hlsr, hfifo]
  · simpa [hlsr] using h.credit

theorem writePoll_fifoSize {buf : List UInt8} {lsr : UInt8} :
    (writePoll s buf lsr).dev.fifoSize = s.dev.fifoSize := by
  unfold writePoll
  by_cases hlsr : lsr &&& lsrTxSrEmpty ≠ 0
  · simp [hlsr]
  · simp [hlsr]

theorem writePoll_point (s : State) (buf : List UInt8) (lsr : UInt8) :
    (writePoll s buf lsr).point =
      if (writePoll s buf lsr).dev.fifoSpace = 0 then .poll buf else .fill buf 0 := rfl

theorem Inv.poll (h : Inv u dev s) {buf : List UInt8} (hpoint : s.point = .poll buf) {lsr : UInt8}
    (hreads : s.uart.Reads lsr) : Inv u dev (writePoll s buf lsr) := by
  have hcredit := writePoll_credit h buf hreads
  refine ⟨⟨?_, h.lost, ?_, h.calls⟩, h.size, writePoll_fifoSize.trans h.fifoSize, ?_⟩
  · rw [writePoll_fifoSize]
    exact hcredit
  · have hbytes := h.bytes
    have hsent : (writePoll s buf lsr).point.sent = [] := by
      rw [writePoll_point]
      split <;> rfl
    rw [State.sent, hpoint] at hbytes
    rw [State.sent, hsent]
    exact hbytes
  · rw [writePoll_point]
    split
    · trivial
    · rename_i hspace
      exact ⟨Nat.zero_le _, by rw [writePoll_fifoSize]; omega, fun _ => hspace⟩

theorem Inv.filling (h : Inv u dev s) {buf : List UInt8} {i : ℕ} (hpoint : s.point = .fill buf i) :
    i ≤ buf.length ∧ i + s.dev.fifoSpace.toNat ≤ s.dev.fifoSize.toNat ∧
      (i = 0 → s.dev.fifoSpace ≠ 0) := by
  have hwithin := h.within
  rw [hpoint] at hwithin
  exact hwithin

theorem Inv.room (h : Inv u dev s) (hspace : s.dev.fifoSpace ≠ 0) :
    s.uart.fifo.length < s.uart.size := by
  have hpos : 0 < s.dev.fifoSpace.toNat :=
    Nat.pos_of_ne_zero fun hzero => hspace (UInt16.toNat_inj.mp hzero)
  have hcredit := h.credit
  rw [h.size, ← h.fifoSize]
  omega

/-- A byte goes into a FIFO with room. -/
theorem Inv.write (h : Inv u dev s) {buf : List UInt8} {i : ℕ} (hpoint : s.point = .fill buf i)
    (hi : i < buf.length) (hspace : s.dev.fifoSpace ≠ 0) : Inv u dev (writeFill s buf i) := by
  have hpos : 0 < s.dev.fifoSpace.toNat :=
    Nat.pos_of_ne_zero fun hzero => hspace (UInt16.toNat_inj.mp hzero)
  have hless : (s.dev.fifoSpace - 1).toNat = s.dev.fifoSpace.toNat - 1 :=
    UInt16.toNat_sub_of_le _ _ (UInt16.le_iff_toNat_le.mpr hpos)
  have hcredit := h.credit
  obtain ⟨-, hfits, -⟩ := h.filling hpoint
  rw [writeFill, dif_pos ⟨hi, hspace⟩, writeData_room (h.room hspace)]
  refine ⟨⟨?_, h.lost, ?_, h.calls⟩, h.size, h.fifoSize, hi, ?_, by simp⟩
  · simp only [List.length_append, List.length_singleton, hless]
    omega
  · have hbytes := h.bytes
    rw [State.sent, hpoint] at hbytes
    simp only [State.sent, Point.sent, Transmitter.bytes] at hbytes ⊢
    rw [← List.append_assoc, hbytes, List.take_add_one, List.getElem?_eq_getElem hi]
    simp
  · simp only [hless]
    omega

theorem Inv.return (h : Inv u dev s) {buf : List UInt8} {i : ℕ} (hpoint : s.point = .fill buf i)
    (hend : ¬ (i < buf.length ∧ s.dev.fifoSpace ≠ 0)) : Inv u dev (writeFill s buf i) := by
  obtain ⟨hinside, hfits, hfirst⟩ := h.filling hpoint
  rw [writeFill, dif_neg hend]
  refine ⟨⟨h.credit, h.lost, ?_, ?_⟩, h.size, h.fifoSize, trivial⟩
  · have hbytes := h.bytes
    rw [State.sent, hpoint] at hbytes
    simpa [State.sent, Point.sent, Call.sent] using hbytes
  · intro c hc
    rcases List.mem_append.mp hc with hc | hc
    · exact h.calls c hc
    · obtain rfl := List.mem_singleton.mp hc
      refine ⟨hinside, ?_, fun hne => ?_⟩
      · rw [← h.fifoSize]
        exact (Nat.le_add_right _ _).trans hfits
      · -- the credit is positive before the first byte, and so is the length
        by_contra hzero
        have hi : i = 0 := by
          simp only [not_le, Nat.lt_one_iff] at hzero
          exact hzero
        exact hend ⟨hi ▸ List.length_pos_of_ne_nil hne, hfirst hi⟩

theorem Inv.step {a : Action} (hstep : Ns16c550.step s a = some s') (h : Inv u dev s) :
    Inv u dev s' := by
  cases a with
  | load =>
    obtain ⟨u', hload, rfl⟩ := Option.map_eq_some_iff.mp hstep
    exact h.drained (load_drained hload)
  | send =>
    obtain ⟨u', hsend, rfl⟩ := Option.map_eq_some_iff.mp hstep
    exact h.drained (send_drained hsend)
  | call buf =>
    simp only [Ns16c550.step] at hstep
    split at hstep
    · rename_i hpoint
      obtain rfl := Option.some.inj hstep
      exact h.call hpoint buf
    · cases hstep
  | poll lsr =>
    simp only [Ns16c550.step] at hstep
    split at hstep
    · rename_i buf hpoint
      split at hstep
      · rename_i hreads
        obtain rfl := Option.some.inj hstep
        exact h.poll hpoint hreads
      · cases hstep
    · cases hstep
  | fill =>
    simp only [Ns16c550.step] at hstep
    split at hstep
    · rename_i buf i hpoint
      obtain rfl := Option.some.inj hstep
      by_cases hmore : i < buf.length ∧ s.dev.fifoSpace ≠ 0
      · exact h.write hpoint hmore.1 hmore.2
      · exact h.return hpoint hmore
    · cases hstep

/-- The driver has no credit after `ns16c550_init`. -/
theorem inv_start (hsize : u.size = dev.fifoSize.toNat) (hspace : dev.fifoSpace = 0)
    (hfifo : u.fifo = []) : Inv u dev (start dev u) where
  credit := by simp [start, hspace, hfifo]
  lost := rfl
  bytes := (List.append_nil _).symm
  calls := by simp [start]
  size := hsize
  fifoSize := rfl
  within := trivial

/-- Every run keeps the invariant. -/
theorem Inv.run {actions : List Action} (hrun : Ns16c550.run s actions = some s')
    (h : Inv u dev s) : Inv u dev s' :=
  foldlM_invariant (fun _ _ _ hstep hs => hs.step hstep) hrun h

end Steps

section Returns

variable {u : Transmitter} {dev : Dev} {s s' : State}

/-- A bound on the steps that are left to the end of the call and of the bytes. -/
def Point.left : Point → ℕ
  | .idle => 0
  | .poll buf => 3 * buf.length + 2
  | .fill buf i => 3 * (buf.length - i) + 1

def State.left (s : State) : ℕ :=
  2 * s.uart.fifo.length + s.uart.shift.toList.length + s.point.left

/-- No call is in progress and everything has gone out. -/
def State.Quiet (s : State) : Prop :=
  s.point = .idle ∧ s.uart.fifo = [] ∧ s.uart.shift = none

/-- The buffers of the calls that were made. -/
def Point.bufs : Point → List (List UInt8)
  | .idle => []
  | .poll buf => [buf]
  | .fill buf _ => [buf]

def State.bufs (s : State) : List (List UInt8) := s.calls.map Call.buf ++ s.point.bufs

/-- A round of the first loop that finds no credit. -/
def Spins (s : State) (a : Action) : Prop :=
  ∃ lsr, a = .poll lsr ∧ lsr &&& lsrTxSrEmpty = 0 ∧ s.dev.fifoSpace = 0

theorem writeFill_left (h : Inv u dev s) {buf : List UInt8} {i : ℕ}
    (hpoint : s.point = .fill buf i) :
    (writeFill s buf i).left < s.left ∧ (writeFill s buf i).bufs = s.bufs := by
  unfold writeFill
  split
  · rename_i hmore
    rw [writeData_room (h.room hmore.2)]
    simp only [State.left, State.bufs, Point.left, Point.bufs, hpoint, List.length_append,
      List.length_singleton, and_true]
    omega
  · simp [State.left, State.bufs, Point.left, Point.bufs, hpoint]

theorem writePoll_left {buf : List UInt8} (hpoint : s.point = .poll buf) {lsr : UInt8}
    (hspace : (writePoll s buf lsr).dev.fifoSpace ≠ 0) :
    (writePoll s buf lsr).left < s.left ∧ (writePoll s buf lsr).bufs = s.bufs := by
  have hfill : (writePoll s buf lsr).point = .fill buf 0 := by
    rw [writePoll_point, if_neg hspace]
  rw [State.left, State.bufs, hfill]
  constructor
  · simp only [State.left, hpoint, Point.left]
    change 2 * s.uart.fifo.length + s.uart.shift.toList.length + _ < _
    omega
  · rw [State.bufs, hpoint]
    rfl

theorem writePoll_spins (hsize : s.dev.fifoSize ≠ 0) {buf : List UInt8} {lsr : UInt8}
    (hspace : (writePoll s buf lsr).dev.fifoSpace = 0) :
    lsr &&& lsrTxSrEmpty = 0 ∧ s.dev.fifoSpace = 0 := by
  unfold writePoll at hspace
  by_cases hlsr : lsr &&& lsrTxSrEmpty = 0
  · exact ⟨hlsr, by simpa [hlsr] using hspace⟩
  · exact absurd (by simpa [hlsr] using hspace) hsize

/-- Every step but a call and a round without credit brings the end nearer. -/
theorem step_left (h : Inv u dev s) (hpos : dev.fifoSize ≠ 0) {a : Action}
    (hstep : step s a = some s') (hcall : ∀ buf, a ≠ .call buf) :
    s'.bufs = s.bufs ∧ (s'.left < s.left ∨ Spins s a) := by
  cases a with
  | load =>
    obtain ⟨u', hload, rfl⟩ := Option.map_eq_some_iff.mp hstep
    obtain ⟨b, rest, hfifo, hshift, rfl⟩ := load_cases hload
    refine ⟨rfl, .inl ?_⟩
    simp only [State.left, hfifo, hshift, List.length_cons, Option.toList_some, Option.toList_none,
      List.length_nil]
    omega
  | send =>
    obtain ⟨u', hsend, rfl⟩ := Option.map_eq_some_iff.mp hstep
    obtain ⟨b, hshift, rfl⟩ := send_cases hsend
    refine ⟨rfl, .inl ?_⟩
    simp [State.left, hshift]
  | call buf => exact absurd rfl (hcall buf)
  | poll lsr =>
    simp only [step] at hstep
    split at hstep
    · rename_i buf hpoint
      split at hstep
      · obtain rfl := Option.some.inj hstep
        by_cases hspace : (writePoll s buf lsr).dev.fifoSpace = 0
        · obtain ⟨hlsr, hzero⟩ := writePoll_spins (by rwa [h.fifoSize]) hspace
          refine ⟨?_, .inr ⟨lsr, rfl, hlsr, hzero⟩⟩
          rw [State.bufs, writePoll_point, if_pos hspace, State.bufs, hpoint]
          rfl
        · obtain ⟨hleft, hbufs⟩ := writePoll_left hpoint hspace
          exact ⟨hbufs, .inl hleft⟩
      · cases hstep
    · cases hstep
  | fill =>
    simp only [step] at hstep
    split at hstep
    · rename_i buf i hpoint
      obtain rfl := Option.some.inj hstep
      obtain ⟨hleft, hbufs⟩ := writeFill_left h hpoint
      exact ⟨hbufs, .inl hleft⟩
    · cases hstep

/-- Short of the end there is such a step. -/
theorem exists_step (hquiet : ¬ s.Quiet) :
    ∃ a s', (∀ buf, a ≠ .call buf) ∧ step s a = some s' ∧ ¬ Spins s a := by
  match hshift : s.uart.shift, hfifo : s.uart.fifo with
  | some b, _ =>
    have hsend : s.uart.send = some { s.uart with shift := none, line := s.uart.line ++ [b] } := by
      simp only [Transmitter.send, hshift]
    exact ⟨.send, _, by simp, Option.map_eq_some_iff.mpr ⟨_, hsend, rfl⟩, by simp [Spins]⟩
  | none, b :: rest =>
    have hload : s.uart.load = some { s.uart with fifo := rest, shift := some b } := by
      simp only [Transmitter.load, hshift, hfifo]
    exact ⟨.load, _, by simp, Option.map_eq_some_iff.mpr ⟨_, hload, rfl⟩, by simp [Spins]⟩
  | none, [] =>
    cases hpoint : s.point with
    | idle => exact absurd ⟨hpoint, hfifo, hshift⟩ hquiet
    | poll buf =>
      refine ⟨.poll lsrTxSrEmpty, writePoll s buf lsrTxSrEmpty, by simp, ?_, ?_⟩
      · simp only [step, hpoint]
        exact if_pos fun _ => ⟨hfifo, hshift⟩
      · rintro ⟨lsr, heq, hlsr, -⟩
        obtain rfl := Action.poll.inj heq
        exact absurd hlsr (by decide)
    | fill buf i =>
      refine ⟨.fill, writeFill s buf i, by simp, ?_, by simp [Spins]⟩
      simp only [step, hpoint]

/-- From every state the call in progress can return and its bytes go out. -/
theorem exists_quiet (h : Inv u dev s) (hpos : dev.fifoSize ≠ 0) :
    ∃ actions s', (∀ a ∈ actions, ∀ buf, a ≠ .call buf) ∧ run s actions = some s' ∧
      s'.bufs = s.bufs ∧ s'.Quiet ∧ s'.uart.line = u.bytes ++ s'.calls.flatMap Call.sent := by
  have hnearer : ∀ t, Inv u dev t ∧ t.bufs = s.bufs → ¬ t.Quiet → ∃ a t',
      (∀ buf, a ≠ .call buf) ∧ step t a = some t' ∧ (Inv u dev t' ∧ t'.bufs = s.bufs) ∧
        t'.left < t.left := by
    rintro t ⟨ht, htbufs⟩ hquiet
    obtain ⟨a, t', hcall, hstep, hspins⟩ := exists_step hquiet
    obtain ⟨hbufs, hleft⟩ := step_left ht hpos hstep hcall
    exact ⟨a, t', hcall, hstep, ⟨ht.step hstep, hbufs.trans htbufs⟩, hleft.resolve_right hspins⟩
  obtain ⟨actions, s', hcalls, hrun, ⟨hinv, hbufs⟩, hquiet⟩ :=
    exists_foldlM_of_measure (P := fun t => Inv u dev t ∧ t.bufs = s.bufs)
      (A := fun a => ∀ buf, a ≠ Action.call buf) State.left hnearer ⟨h, rfl⟩
  refine ⟨actions, s', hcalls, hrun, hbufs, hquiet, ?_⟩
  obtain ⟨hpoint, hfifo, hshift⟩ := hquiet
  have hbytes := hinv.bytes
  rw [State.sent, hpoint] at hbytes
  simpa [Transmitter.bytes, hfifo, hshift, Point.sent] using hbytes

end Returns

section Repeats

/-- Calls that write `data`, each what the one before it has left; `rest` is what
the last one has left. -/
def Repeats : List UInt8 → List Call → List UInt8 → Prop
  | data, [], rest => rest = data
  | data, c :: calls, rest => c.buf = data ∧ Repeats (data.drop c.count) calls rest

/-- Repeated calls write every byte once, and as many calls as bytes are enough. -/
theorem Repeats.sent {dev : Dev} {data rest : List UInt8} {calls : List Call}
    (hrepeats : Repeats data calls rest) (hcalls : ∀ c ∈ calls, c.Counted dev) :
    calls.flatMap Call.sent ++ rest = data ∧ (data.length ≤ calls.length → rest = []) := by
  induction calls generalizing data with
  | nil =>
    obtain rfl : rest = data := hrepeats
    exact ⟨rfl, List.eq_nil_of_length_eq_zero ∘ Nat.le_zero.mp⟩
  | cons c calls ih =>
    obtain ⟨rfl, hlater⟩ := hrepeats
    obtain ⟨hsent, hend⟩ := ih hlater fun c' hc' => hcalls c' (List.mem_cons_of_mem _ hc')
    constructor
    · rw [List.flatMap_cons, List.append_assoc, hsent]
      exact List.take_append_drop _ _
    · intro hlength
      refine hend ?_
      rw [List.length_cons] at hlength
      rw [List.length_drop]
      by_cases hnil : c.buf = []
      · simp [hnil]
      · have hprogress := (hcalls c List.mem_cons_self).progress hnil
        omega

end Repeats

theorem ns16c550Init_eq {dev : Dev} {u u' : Transmitter} (h : ns16c550Init dev u = some u') :
    u' = { u with fifo := [] } := by
  unfold ns16c550Init at h
  split at h
  · exact (Option.some.inj h).symm
  · cases h

/-- After `ns16c550_init`, in any interleaving of calls of `write` with the
transmitter: the FIFO is not overrun and the bytes go out in the order of the
calls, each call the first bytes of its buffer by its count; repeated calls send
every byte once; and what was called can return and go out. -/
theorem write_transmits (dev : Dev) (u u' : Transmitter) (hpos : 1 ≤ dev.fifoSize)
    (hspace : dev.fifoSpace = 0) (hsize : u.size = dev.fifoSize.toNat)
    (hinit : ns16c550Init dev u = some u') (actions : List Action) (s : State)
    (hrun : run (start dev u') actions = some s) :
    Transmits u' dev s ∧
    (∀ earlier calls data rest, s.calls = earlier ++ calls → Repeats data calls rest →
      calls.flatMap Call.sent ++ rest = data ∧ (data.length ≤ calls.length → rest = [])) ∧
    ∃ later t, (∀ a ∈ later, ∀ buf, a ≠ .call buf) ∧ run s later = some t ∧ t.bufs = s.bufs ∧
      t.Quiet ∧ t.uart.line = u'.bytes ++ t.calls.flatMap Call.sent := by
  have hne : dev.fifoSize ≠ 0 := by
    intro hzero
    rw [hzero] at hpos
    exact absurd hpos (by decide)
  obtain rfl := ns16c550Init_eq hinit
  have hstart : Inv { u with fifo := [] } dev (start dev { u with fifo := [] }) :=
    inv_start hsize hspace rfl
  have hinv := hstart.run hrun
  refine ⟨hinv.toTransmits, ?_, exists_quiet hinv hne⟩
  intro earlier calls data rest hcalls hrepeats
  exact hrepeats.sent fun c hc => hinv.calls c (hcalls ▸ List.mem_append_right _ hc)

/-- Three bytes through a FIFO of two: two calls, the second of which waits for
the transmitter. -/
def twoCalls : List Action :=
  [.call [1, 2, 3], .poll 0x60, .fill, .fill, .load, .fill, .call [3], .poll 0, .send, .load,
    .poll 0x20, .send, .poll 0x60, .fill, .fill, .load, .send]

/-- A device with a FIFO of two bytes that still holds others. -/
def uart0 : Dev × Transmitter :=
  ({ fifoSize := 2, fifoSpace := 0, regWidth := 32 },
    { size := 2, fifo := [9, 9], shift := none, line := [], lost := [] })

theorem twoCalls_transmit :
    ∃ u s, ns16c550Init uart0.1 uart0.2 = some u ∧ run (start uart0.1 u) twoCalls = some s ∧
      s.uart.line = [1, 2, 3] ∧ s.calls = [⟨[1, 2, 3], 2⟩, ⟨[3], 1⟩] ∧ Transmits u uart0.1 s :=
  ⟨_, _, rfl, rfl, rfl, rfl,
    (write_transmits uart0.1 uart0.2 _ (by decide) rfl rfl rfl twoCalls _ rfl).1⟩

end Gandr.Uart.Ns16c550

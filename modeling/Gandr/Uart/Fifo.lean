import Gandr.Lib.Program
import Gandr.Lib.Strings

/-! Bytes through the FIFOs of a PL011: `pl011_write` and `pl011_read` of
`bal/device/uart/arm_pl011/arm_pl011.c`, and `uputc` and `puts` of
`bal/platform/atf/kickstart/pl011.c`. The transmitter takes bytes from its FIFO, and
the receiver puts bytes into its own, whenever they like between two accesses of the
driver. -/

namespace Gandr.Uart.Fifo

inductive Request where
  /-- `UART_FR` -/
  | readFr
  /-- `UART_DR` -/
  | readDr
  | writeDr (value : UInt32)
  deriving DecidableEq

abbrev Reply : Request → Type
  | .readFr => UInt32
  | .readDr => UInt32
  | .writeDr _ => Unit

abbrev Driver := Program Reply

abbrev Device := Environment Reply

def frRxfe : UInt32 := (1 : UInt32) <<< 4
def frTxff : UInt32 := (1 : UInt32) <<< 5

def readFr : Driver UInt32 := .ask .readFr .done

def readDr : Driver UInt32 := .ask .readDr .done

def writeDr (value : UInt32) : Driver Unit := .ask (.writeDr value) .done

/-- The loops that wait for a flag to be clear, for at most `polls` reads of it. -/
def waitWhile (bit : UInt32) : (polls : ℕ) → Driver Unit
  | 0 => .stuck
  | polls + 1 => do
    let fr ← readFr
    if fr &&& bit ≠ 0 then waitWhile bit polls else pure ()

/-- The loop of `pl011_write`; the value is what it adds to `*written`. A `char` of ARM
has no sign to extend. -/
def writeLoop : List UInt8 → Driver ℕ
  | [] => pure 0
  | b :: buf => do
    let fr ← readFr
    if fr &&& frTxff ≠ 0 then pure 0
    else do
      writeDr b.toUInt32
      let written ← writeLoop buf
      pure (written + 1)

def pl011Write (polls : ℕ) (buf : List UInt8) : Driver ℕ := do
  waitWhile frTxff polls
  writeLoop buf

/-- The loop of `pl011_read`, for at most `nbytes` more bytes. -/
def readLoop : (nbytes : ℕ) → Driver (List UInt8)
  | 0 => pure []
  | nbytes + 1 => do
    let fr ← readFr
    if fr &&& frRxfe ≠ 0 then pure []
    else do
      let dr ← readDr
      let buf ← readLoop nbytes
      pure (dr.toUInt8 :: buf)

/-- The bytes that `pl011_read` puts into the buffer; `*read` is their number. -/
def pl011Read (polls nbytes : ℕ) : Driver (List UInt8) := do
  waitWhile frRxfe polls
  readLoop nbytes

/-- A byte of `uputc` when there is room for it. -/
def sendByte (polls : ℕ) (c : UInt8) : Driver Unit := do
  waitWhile frTxff polls
  writeDr c.toUInt32

def uputc (polls : ℕ) (c : UInt8) : Driver Unit :=
  if c = 0x0A then do
    sendByte polls 0x0D
    sendByte polls c
  else sendByte polls c

def puts (polls : ℕ) : CString → Driver Unit
  | [] => uputc polls 0x0A
  | c :: str => do
    uputc polls c
    puts polls str

structure Transmitter where
  /-- bytes that the FIFO can hold -/
  size : ℕ
  fifo : List UInt8
  /-- bytes that have gone out -/
  line : List UInt8
  /-- bytes that were written to a full FIFO -/
  lost : List UInt8
  deriving DecidableEq

namespace Transmitter

variable (u : Transmitter)

def drain (n : ℕ) : Transmitter :=
  { u with fifo := u.fifo.drop n, line := u.line ++ u.fifo.take n }

def access : Request → Transmitter
  | .writeDr value =>
    if u.fifo.length < u.size then { u with fifo := u.fifo ++ [value.toUInt8] }
    else { u with lost := u.lost ++ [value.toUInt8] }
  | _ => u

/-- The bytes in the order in which they go out. -/
def bytes : List UInt8 := u.line ++ u.fifo

/-- The transmitter after some accesses, of which the one of number `i` comes after
`drains i` bytes have left the FIFO. -/
def after (drains : ℕ → ℕ) (h : List Request) : Transmitter :=
  h.zipIdx.foldl (fun u q => (u.drain (drains q.2)).access q.1) u

theorem after_append (drains : ℕ → ℕ) (h : List Request) (q : Request) :
    u.after drains (h ++ [q]) = ((u.after drains h).drain (drains h.length)).access q := by
  simp [after, List.zipIdx_append]

@[simp] theorem bytes_drain (n : ℕ) : (u.drain n).bytes = u.bytes := by
  simp [drain, bytes]

@[simp] theorem lost_drain (n : ℕ) : (u.drain n).lost = u.lost := rfl

@[simp] theorem size_drain (n : ℕ) : (u.drain n).size = u.size := rfl

theorem length_drain (n : ℕ) : (u.drain n).fifo.length = u.fifo.length - n := List.length_drop

theorem access_writeDr (h : u.fifo.length < u.size) (c : UInt8) :
    u.access (.writeDr c.toUInt32) = { u with fifo := u.fifo ++ [c] } := by
  rw [access, if_pos h]
  simp

end Transmitter

section Transmit

/-- The flag register shows whether the FIFO is full. -/
def ShowsFull (dev : Device) (u : Transmitter) (drains : ℕ → ℕ) : Prop :=
  ∀ h, (dev h .readFr : UInt32) &&& frTxff ≠ 0 ↔
    u.size ≤ ((u.after drains h).drain (drains h.length)).fifo.length

variable {dev : Device} {u : Transmitter} {drains : ℕ → ℕ}

theorem size_after (h : List Request) : (u.after drains h).size = u.size := by
  induction h using List.reverseRecOn with
  | nil => rfl
  | append_singleton h q ih =>
    rw [Transmitter.after_append]
    cases q with
    | readFr => exact ih
    | readDr => exact ih
    | writeDr value =>
      rw [Transmitter.access]
      split_ifs <;> exact ih

variable {bit : UInt32} {h : List Request}

theorem waitWhile_ends (hfr : ¬ (dev h .readFr : UInt32) &&& bit ≠ 0) :
    Program.Settles dev h (waitWhile bit) () [.readFr] := by
  refine ⟨1, fun polls hpolls => ?_⟩
  obtain ⟨polls, rfl⟩ : ∃ n, polls = n + 1 := ⟨polls - 1, by omega⟩
  rw [waitWhile, Program.run_bind]
  change ((Program.run dev (h ++ [.readFr]) (if _ then _ else _)).map _) = _
  rw [if_neg hfr]
  rfl

theorem waitWhile_goes_on {qs : List Request} (hfr : (dev h .readFr : UInt32) &&& bit ≠ 0)
    (hrest : Program.Settles dev (h ++ [.readFr]) (waitWhile bit) () qs) :
    Program.Settles dev h (waitWhile bit) () (.readFr :: qs) := by
  obtain ⟨n, hn⟩ := hrest
  refine ⟨n + 1, fun polls hpolls => ?_⟩
  obtain ⟨polls, rfl⟩ : ∃ n, polls = n + 1 := ⟨polls - 1, by omega⟩
  rw [waitWhile, Program.run_bind]
  change ((Program.run dev (h ++ [.readFr]) (if _ then _ else _)).map _) = _
  rw [if_pos hfr, hn polls (by omega)]
  rfl

/-- What accesses have added to the bytes, with none of them lost. -/
structure Sent (u : Transmitter) (drains : ℕ → ℕ) (h qs : List Request) (s : List UInt8) : Prop where
  bytes : (u.after drains (h ++ qs)).bytes = (u.after drains h).bytes ++ s
  lost : (u.after drains (h ++ qs)).lost = (u.after drains h).lost

theorem Sent.nil (h : List Request) : Sent u drains h [] [] := by
  constructor <;> simp

theorem Sent.append {h qs qs' : List Request} {s t : List UInt8} (h₁ : Sent u drains h qs s)
    (h₂ : Sent u drains (h ++ qs) qs' t) : Sent u drains h (qs ++ qs') (s ++ t) := by
  constructor
  · rw [← List.append_assoc, h₂.bytes, h₁.bytes, List.append_assoc]
  · rw [← List.append_assoc, h₂.lost, h₁.lost]

theorem Sent.readFr (h : List Request) : Sent u drains h [.readFr] [] := by
  constructor
  · rw [Transmitter.after_append]
    simp [Transmitter.access]
  · rw [Transmitter.after_append]
    rfl

/-- There is room for a byte. -/
def Room (u : Transmitter) (drains : ℕ → ℕ) (h : List Request) : Prop :=
  (u.after drains h).fifo.length < u.size

theorem Room.drain {h : List Request} (hr : Room u drains h) (n : ℕ) :
    ((u.after drains h).drain n).fifo.length < u.size := by
  rw [Transmitter.length_drain]
  exact Nat.lt_of_le_of_lt (Nat.sub_le _ _) hr

theorem Sent.writeDr {h : List Request} (hr : Room u drains h) (c : UInt8) :
    Sent u drains h [.writeDr c.toUInt32] [c] := by
  have hroom := hr.drain (drains h.length)
  have hsize : ((u.after drains h).drain (drains h.length)).size = u.size := size_after h
  rw [← hsize] at hroom
  have hbytes := (u.after drains h).bytes_drain (drains h.length)
  constructor
  · rw [Transmitter.after_append, Transmitter.access_writeDr _ hroom, ← hbytes]
    exact (List.append_assoc _ _ _).symm
  · rw [Transmitter.after_append, Transmitter.access_writeDr _ hroom]
    rfl

/-- A read that does not find the FIFO full finds room. -/
theorem room_of_readFr (hd : ShowsFull dev u drains) {h : List Request}
    (hfr : ¬ (dev h .readFr : UInt32) &&& frTxff ≠ 0) : Room u drains (h ++ [.readFr]) := by
  rw [hd h, not_le] at hfr
  rw [Room, Transmitter.after_append]
  exact hfr

/-- The wait for room ends if the transmitter goes on. -/
theorem waitWhile_room (hd : ShowsFull dev u drains) (hsize : 0 < u.size)
    (hfits : (u.after drains h).fifo.length ≤ u.size) (hlive : ∀ i, ∃ j ≥ i, 0 < drains j) :
    ∃ qs, Program.Settles dev h (waitWhile frTxff) () qs ∧ Sent u drains h qs [] ∧
      Room u drains (h ++ qs) := by
  obtain ⟨j, hj, hpos⟩ := hlive h.length
  -- by the accesses until the transmitter takes a byte
  induction hn : j - h.length generalizing h with
  | zero =>
    have hdrain : ((u.after drains h).drain (drains h.length)).fifo.length < u.size := by
      rw [Transmitter.length_drain, show h.length = j by omega]
      omega
    have hfr : ¬ (dev h .readFr : UInt32) &&& frTxff ≠ 0 := by
      rw [hd h, not_le]
      exact hdrain
    exact ⟨[.readFr], waitWhile_ends hfr, .readFr h, room_of_readFr hd hfr⟩
  | succ n ih =>
    by_cases hfr : (dev h .readFr : UInt32) &&& frTxff ≠ 0
    · have hlen : (h ++ [Request.readFr]).length = h.length + 1 := List.length_append
      have hfits' : (u.after drains (h ++ [.readFr])).fifo.length ≤ u.size := by
        rw [Transmitter.after_append]
        refine le_trans ?_ hfits
        exact (Transmitter.length_drain _ _).trans_le (Nat.sub_le _ _)
      obtain ⟨qs, hsettles, hsent, hroom⟩ := ih hfits' (by omega) (by omega)
      refine ⟨.readFr :: qs, waitWhile_goes_on hfr hsettles, ?_, ?_⟩
      · exact (Sent.readFr h).append hsent
      · rwa [List.append_assoc] at hroom
    · exact ⟨[.readFr], waitWhile_ends hfr, .readFr h, room_of_readFr hd hfr⟩

/-- A FIFO never holds more than it can. -/
theorem length_after_le (hfits : u.fifo.length ≤ u.size) (h : List Request) :
    (u.after drains h).fifo.length ≤ u.size := by
  induction h using List.reverseRecOn with
  | nil => exact hfits
  | append_singleton h q ih =>
    have hdrain : ((u.after drains h).drain (drains h.length)).fifo.length ≤ u.size := by
      rw [Transmitter.length_drain]
      omega
    have hsize : ((u.after drains h).drain (drains h.length)).size = u.size := size_after h
    rw [Transmitter.after_append]
    cases q with
    | readFr => exact hdrain
    | readDr => exact hdrain
    | writeDr value =>
      rw [Transmitter.access]
      split_ifs with hroom
      · rw [hsize] at hroom
        rw [List.length_append]
        exact hroom
      · exact hdrain

theorem writeLoop_full {b : UInt8} {buf : List UInt8} (hfr : (dev h .readFr : UInt32) &&& frTxff ≠ 0) :
    (writeLoop (b :: buf)).run dev h = some (0, [.readFr]) := by
  rw [writeLoop, Program.run_bind]
  change ((Program.run dev (h ++ [.readFr]) (if _ then _ else _)).map _) = _
  rw [if_pos hfr]
  rfl

theorem writeLoop_room {b : UInt8} {buf : List UInt8} {written : ℕ} {qs : List Request}
    (hfr : ¬ (dev h .readFr : UInt32) &&& frTxff ≠ 0)
    (hrest : (writeLoop buf).run dev (h ++ [.readFr] ++ [.writeDr b.toUInt32]) = some (written, qs)) :
    (writeLoop (b :: buf)).run dev h =
      some (written + 1, .readFr :: .writeDr b.toUInt32 :: qs) := by
  rw [writeLoop, Program.run_bind]
  change ((Program.run dev (h ++ [.readFr]) (if _ then _ else _)).map _) = _
  rw [if_neg hfr, Program.run_bind]
  change (((Program.run dev (h ++ [.readFr] ++ [.writeDr b.toUInt32]) _).map _).map _) = _
  rw [Program.run_bind, hrest, Option.bind_some, Program.run_pure, Option.map_some, List.append_nil]
  rfl

/-- The loop sends the bytes it counts. -/
theorem writeLoop_sends (hd : ShowsFull dev u drains) (buf : List UInt8) (h : List Request) :
    ∃ written qs, (writeLoop buf).run dev h = some (written, qs) ∧ written ≤ buf.length ∧
      Sent u drains h qs (buf.take written) := by
  induction buf generalizing h with
  | nil => exact ⟨0, [], rfl, le_rfl, .nil h⟩
  | cons b buf ih =>
    by_cases hfr : (dev h .readFr : UInt32) &&& frTxff ≠ 0
    · exact ⟨0, [.readFr], writeLoop_full hfr, Nat.zero_le _, .readFr h⟩
    · obtain ⟨written, qs, hrun, hle, hsent⟩ := ih (h ++ [.readFr] ++ [.writeDr b.toUInt32])
      refine ⟨written + 1, _, writeLoop_room hfr hrun, Nat.succ_le_succ hle, ?_⟩
      have hbyte := (Sent.readFr h).append (.writeDr (room_of_readFr hd hfr) b)
      rw [List.append_assoc] at hsent
      exact hbyte.append hsent

/-- With room for a byte, at least one is sent. -/
theorem writeLoop_pos (hd : ShowsFull dev u drains) {buf : List UInt8} (hroom : Room u drains h)
    (hne : buf ≠ []) {written : ℕ} {qs : List Request}
    (hrun : (writeLoop buf).run dev h = some (written, qs)) : 1 ≤ written := by
  have hfr : ¬ (dev h .readFr : UInt32) &&& frTxff ≠ 0 := by
    rw [hd h, not_le]
    exact hroom.drain _
  cases buf with
  | nil => exact absurd rfl hne
  | cons b buf =>
    obtain ⟨n, qs', hrest, -⟩ := writeLoop_sends hd buf (h ++ [.readFr] ++ [.writeDr b.toUInt32])
    rw [writeLoop_room hfr hrest] at hrun
    cases hrun
    omega

/-- However the transmitter goes on, `pl011_write` ends, the bytes it has written go
out in their order after those before, none of them is lost, and it has written at
least one if there is one. -/
theorem pl011Write_sends (hd : ShowsFull dev u drains) (hsize : 0 < u.size)
    (hfits : u.fifo.length ≤ u.size) (hlive : ∀ i, ∃ j ≥ i, 0 < drains j) (buf : List UInt8)
    (h : List Request) :
    ∃ written qs, Program.Settles dev h (fun polls => pl011Write polls buf) written qs ∧
      written ≤ buf.length ∧ (buf ≠ [] → 1 ≤ written) ∧
      (u.after drains (h ++ qs)).bytes = (u.after drains h).bytes ++ buf.take written ∧
      (u.after drains (h ++ qs)).lost = (u.after drains h).lost := by
  obtain ⟨qs, hwait, hsent, hroom⟩ := waitWhile_room hd hsize (length_after_le hfits h) hlive
  obtain ⟨written, qs', hrun, hle, hsent'⟩ := writeLoop_sends hd buf (h ++ qs)
  have hall := hsent.append hsent'
  refine ⟨written, qs ++ qs', hwait.bind ⟨0, fun _ _ => hrun⟩, hle, ?_, hall.bytes, hall.lost⟩
  intro hne
  exact writeLoop_pos hd hroom hne hrun

/-- A PL011 of which only the transmitter is in use. -/
def transmitting (u : Transmitter) (drains : ℕ → ℕ) : Device
  | h, .readFr =>
    if u.size ≤ ((u.after drains h).drain (drains h.length)).fifo.length then frTxff else 0
  | _, .readDr => (0 : UInt32)
  | _, .writeDr _ => ()

theorem showsFull_transmitting (u : Transmitter) (drains : ℕ → ℕ) :
    ShowsFull (transmitting u drains) u drains := by
  intro h
  simp only [transmitting]
  split_ifs with hfull
  · exact iff_of_true (by decide) hfull
  · exact iff_of_false (by decide) hfull

/-- A FIFO of two bytes that starts full. -/
def fullFifo : Transmitter := { size := 2, fifo := [0x61, 0x62], line := [], lost := [] }

/-- A byte leaves before every third access. -/
def everyThird (i : ℕ) : ℕ := if i % 3 = 2 then 1 else 0

theorem everyThird_goes_on (i : ℕ) : ∃ j ≥ i, 0 < everyThird j := by
  refine ⟨3 * i + 2, by omega, ?_⟩
  rw [everyThird, if_pos (by omega)]
  exact Nat.one_pos

theorem fullFifo_sends :
    ∃ written qs,
      Program.Settles (transmitting fullFifo everyThird) []
        (fun polls => pl011Write polls [0x63, 0x64, 0x65]) written qs ∧
      written ≤ 3 ∧ ([0x63, 0x64, 0x65] ≠ ([] : List UInt8) → 1 ≤ written) ∧
      (fullFifo.after everyThird ([] ++ qs)).bytes =
        [0x61, 0x62] ++ [0x63, 0x64, 0x65].take written ∧
      (fullFifo.after everyThird ([] ++ qs)).lost = [] :=
  pl011Write_sends (showsFull_transmitting fullFifo everyThird) (by decide) (by decide)
    everyThird_goes_on [0x63, 0x64, 0x65] []

/-- The bytes that `uputc` sends for a character. -/
def crlf (c : UInt8) : List UInt8 := if c = 0x0A then [0x0D, 0x0A] else [c]

theorem sendByte_sends (hd : ShowsFull dev u drains) (hsize : 0 < u.size)
    (hfits : u.fifo.length ≤ u.size) (hlive : ∀ i, ∃ j ≥ i, 0 < drains j) (c : UInt8)
    (h : List Request) :
    ∃ qs, Program.Settles dev h (fun polls => sendByte polls c) () qs ∧ Sent u drains h qs [c] := by
  obtain ⟨qs, hwait, hsent, hroom⟩ := waitWhile_room hd hsize (length_after_le hfits h) hlive
  exact ⟨qs ++ [.writeDr c.toUInt32], hwait.bind (.ask _), hsent.append (.writeDr hroom c)⟩

theorem uputc_sends (hd : ShowsFull dev u drains) (hsize : 0 < u.size)
    (hfits : u.fifo.length ≤ u.size) (hlive : ∀ i, ∃ j ≥ i, 0 < drains j) (c : UInt8)
    (h : List Request) :
    ∃ qs, Program.Settles dev h (fun polls => uputc polls c) () qs ∧
      Sent u drains h qs (crlf c) := by
  by_cases hc : c = 0x0A
  · obtain ⟨qs, hfirst, hsent⟩ := sendByte_sends hd hsize hfits hlive 0x0D h
    obtain ⟨qs', hsecond, hsent'⟩ := sendByte_sends hd hsize hfits hlive c (h ++ qs)
    refine ⟨qs ++ qs', ?_, ?_⟩
    · simp only [uputc, if_pos hc]
      exact hfirst.bind hsecond
    · rw [crlf, if_pos hc, ← hc]
      exact hsent.append hsent'
  · obtain ⟨qs, hsettles, hsent⟩ := sendByte_sends hd hsize hfits hlive c h
    refine ⟨qs, ?_, ?_⟩
    · simp only [uputc, if_neg hc]
      exact hsettles
    · rwa [crlf, if_neg hc]

/-- `puts` ends, and sends the text and the end of a line, with a carriage return
before each end of a line, and loses nothing of it. -/
theorem puts_sends (hd : ShowsFull dev u drains) (hsize : 0 < u.size)
    (hfits : u.fifo.length ≤ u.size) (hlive : ∀ i, ∃ j ≥ i, 0 < drains j) (str : CString)
    (h : List Request) :
    ∃ qs, Program.Settles dev h (fun polls => puts polls str) () qs ∧
      (u.after drains (h ++ qs)).bytes =
        (u.after drains h).bytes ++ (str ++ [0x0A]).flatMap crlf ∧
      (u.after drains (h ++ qs)).lost = (u.after drains h).lost := by
  have hputs : ∃ qs, Program.Settles dev h (fun polls => puts polls str) () qs ∧
      Sent u drains h qs ((str ++ [0x0A]).flatMap crlf) := by
    induction str generalizing h with
    | nil =>
      obtain ⟨qs, hsettles, hsent⟩ := uputc_sends hd hsize hfits hlive 0x0A h
      exact ⟨qs, hsettles, hsent⟩
    | cons c str ih =>
      obtain ⟨qs, hfirst, hsent⟩ := uputc_sends hd hsize hfits hlive c h
      obtain ⟨qs', hrest, hsent'⟩ := ih (h ++ qs)
      exact ⟨qs ++ qs', hfirst.bind hrest, hsent.append hsent'⟩
  obtain ⟨qs, hsettles, hsent⟩ := hputs
  exact ⟨qs, hsettles, hsent.bytes, hsent.lost⟩

theorem fullFifo_line :
    ∃ qs,
      Program.Settles (transmitting fullFifo everyThird) [] (fun polls => puts polls [0x63]) () qs ∧
      (fullFifo.after everyThird ([] ++ qs)).bytes = [0x61, 0x62] ++ [0x63, 0x0D, 0x0A] ∧
      (fullFifo.after everyThird ([] ++ qs)).lost = [] :=
  puts_sends (showsFull_transmitting fullFifo everyThird) (by decide) (by decide)
    everyThird_goes_on [0x63] []

end Transmit

structure Receiver where
  /-- bytes that the FIFO can hold -/
  size : ℕ
  fifo : List UInt8
  /-- bytes that were read -/
  taken : List UInt8
  /-- reads of an empty FIFO -/
  empties : ℕ
  deriving DecidableEq

namespace Receiver

variable (u : Receiver)

/-- Bytes come in as far as there is room for them. -/
def fill (bs : List UInt8) : Receiver := { u with fifo := (u.fifo ++ bs).take u.size }

def access : Request → Receiver
  | .readDr =>
    match u.fifo with
    | [] => { u with empties := u.empties + 1 }
    | b :: rest => { u with fifo := rest, taken := u.taken ++ [b] }
  | _ => u

/-- The receiver after some accesses, of which the one of number `i` comes after the
bytes `arrivals i`. -/
def after (arrivals : ℕ → List UInt8) (h : List Request) : Receiver :=
  h.zipIdx.foldl (fun u q => (u.fill (arrivals q.2)).access q.1) u

theorem after_append (arrivals : ℕ → List UInt8) (h : List Request) (q : Request) :
    u.after arrivals (h ++ [q]) = ((u.after arrivals h).fill (arrivals h.length)).access q := by
  simp [after, List.zipIdx_append]

end Receiver

section Receive

/-- The flag register shows whether the FIFO is empty, and the data register its
first byte. -/
structure ShowsFirst (dev : Device) (u : Receiver) (arrivals : ℕ → List UInt8) : Prop where
  flag : ∀ h, (dev h .readFr : UInt32) &&& frRxfe ≠ 0 ↔
    ((u.after arrivals h).fill (arrivals h.length)).fifo = []
  data : ∀ h b rest, ((u.after arrivals h).fill (arrivals h.length)).fifo = b :: rest →
    UInt32.toUInt8 (dev h .readDr) = b

variable {dev : Device} {u : Receiver} {arrivals : ℕ → List UInt8} {h : List Request}

theorem sizeOf_after (h : List Request) : (u.after arrivals h).size = u.size := by
  induction h using List.reverseRecOn with
  | nil => rfl
  | append_singleton h q ih =>
    rw [Receiver.after_append]
    cases q with
    | readFr => exact ih
    | readDr =>
      rw [Receiver.access]
      split <;> exact ih
    | writeDr value => exact ih

/-- What accesses have taken, with no read of an empty FIFO. -/
structure Taken (u : Receiver) (arrivals : ℕ → List UInt8) (h qs : List Request) (s : List UInt8) :
    Prop where
  taken : (u.after arrivals (h ++ qs)).taken = (u.after arrivals h).taken ++ s
  empties : (u.after arrivals (h ++ qs)).empties = (u.after arrivals h).empties

theorem Taken.nil (h : List Request) : Taken u arrivals h [] [] := by
  constructor <;> simp

theorem Taken.append {qs qs' : List Request} {s t : List UInt8} (h₁ : Taken u arrivals h qs s)
    (h₂ : Taken u arrivals (h ++ qs) qs' t) : Taken u arrivals h (qs ++ qs') (s ++ t) := by
  constructor
  · rw [← List.append_assoc, h₂.taken, h₁.taken, List.append_assoc]
  · rw [← List.append_assoc, h₂.empties, h₁.empties]

theorem Taken.readFr (h : List Request) : Taken u arrivals h [.readFr] [] := by
  constructor
  · rw [Receiver.after_append, List.append_nil]
    rfl
  · rw [Receiver.after_append]
    rfl

/-- There is a byte in the FIFO. -/
def Ready (u : Receiver) (arrivals : ℕ → List UInt8) (h : List Request) : Prop :=
  (u.after arrivals h).fifo ≠ []

theorem fill_ne_nil (hsize : 0 < u.size) {bs : List UInt8}
    (hne : (u.after arrivals h).fifo ≠ [] ∨ bs ≠ []) :
    ((u.after arrivals h).fill bs).fifo ≠ [] := by
  intro hempty
  rw [Receiver.fill, List.take_eq_nil_iff, sizeOf_after] at hempty
  rcases hempty with hempty | hempty
  · omega
  · obtain ⟨h₁, h₂⟩ := List.append_eq_nil_iff.mp hempty
    rcases hne with hne | hne
    · exact hne h₁
    · exact hne h₂

theorem ready_of_readFr (hd : ShowsFirst dev u arrivals)
    (hfr : ¬ (dev h .readFr : UInt32) &&& frRxfe ≠ 0) : Ready u arrivals (h ++ [.readFr]) := by
  rw [hd.flag h] at hfr
  rw [Ready, Receiver.after_append]
  exact hfr

/-- A read takes the first byte, and it is the one the driver gets. -/
theorem Taken.readDr (hd : ShowsFirst dev u arrivals) (hsize : 0 < u.size)
    (hr : Ready u arrivals h) :
    Taken u arrivals h [.readDr] [UInt32.toUInt8 (dev h .readDr)] := by
  have hne : ((u.after arrivals h).fill (arrivals h.length)).fifo ≠ [] :=
    fill_ne_nil hsize (.inl hr)
  obtain ⟨b, rest, hfifo⟩ := List.exists_cons_of_ne_nil hne
  have haccess : ((u.after arrivals h).fill (arrivals h.length)).access .readDr =
      { (u.after arrivals h).fill (arrivals h.length) with
        fifo := rest, taken := (u.after arrivals h).taken ++ [b] } := by
    rw [Receiver.access, hfifo]
    rfl
  constructor
  · rw [Receiver.after_append, haccess, hd.data h b rest hfifo]
  · rw [Receiver.after_append, haccess]
    rfl

/-- The wait for a byte ends if bytes go on to come in. -/
theorem waitWhile_ready (hd : ShowsFirst dev u arrivals) (hsize : 0 < u.size)
    (hlive : ∀ i, ∃ j ≥ i, arrivals j ≠ []) :
    ∃ qs, Program.Settles dev h (waitWhile frRxfe) () qs ∧ Taken u arrivals h qs [] ∧
      Ready u arrivals (h ++ qs) := by
  obtain ⟨j, hj, hbytes⟩ := hlive h.length
  induction hn : j - h.length generalizing h with
  | zero =>
    have hfr : ¬ (dev h .readFr : UInt32) &&& frRxfe ≠ 0 := by
      rw [hd.flag h]
      refine fill_ne_nil hsize (.inr ?_)
      rwa [show h.length = j by omega]
    exact ⟨[.readFr], waitWhile_ends hfr, .readFr h, ready_of_readFr hd hfr⟩
  | succ n ih =>
    by_cases hfr : (dev h .readFr : UInt32) &&& frRxfe ≠ 0
    · have hlen : (h ++ [Request.readFr]).length = h.length + 1 := List.length_append
      obtain ⟨qs, hsettles, htaken, hready⟩ := @ih (h ++ [.readFr]) (by omega) (by omega)
      refine ⟨.readFr :: qs, waitWhile_goes_on hfr hsettles, ?_, ?_⟩
      · exact (Taken.readFr h).append htaken
      · rwa [List.append_assoc] at hready
    · exact ⟨[.readFr], waitWhile_ends hfr, .readFr h, ready_of_readFr hd hfr⟩

theorem readLoop_empty {nbytes : ℕ} (hfr : (dev h .readFr : UInt32) &&& frRxfe ≠ 0) :
    (readLoop (nbytes + 1)).run dev h = some ([], [.readFr]) := by
  rw [readLoop, Program.run_bind]
  change ((Program.run dev (h ++ [.readFr]) (if _ then _ else _)).map _) = _
  rw [if_pos hfr]
  rfl

theorem readLoop_ready {nbytes : ℕ} {buf : List UInt8} {qs : List Request}
    (hfr : ¬ (dev h .readFr : UInt32) &&& frRxfe ≠ 0)
    (hrest : (readLoop nbytes).run dev (h ++ [.readFr] ++ [.readDr]) = some (buf, qs)) :
    (readLoop (nbytes + 1)).run dev h =
      some (UInt32.toUInt8 (dev (h ++ [.readFr]) .readDr) :: buf, .readFr :: .readDr :: qs) := by
  rw [readLoop, Program.run_bind]
  change ((Program.run dev (h ++ [.readFr]) (if _ then _ else _)).map _) = _
  rw [if_neg hfr, Program.run_bind]
  change (((Program.run dev (h ++ [.readFr] ++ [.readDr]) _).map _).map _) = _
  rw [Program.run_bind, hrest, Option.bind_some, Program.run_pure, Option.map_some, List.append_nil]
  rfl

theorem readLoop_takes (hd : ShowsFirst dev u arrivals) (hsize : 0 < u.size) (nbytes : ℕ)
    (h : List Request) :
    ∃ buf qs, (readLoop nbytes).run dev h = some (buf, qs) ∧ buf.length ≤ nbytes ∧
      Taken u arrivals h qs buf := by
  induction nbytes generalizing h with
  | zero => exact ⟨[], [], rfl, le_rfl, .nil h⟩
  | succ nbytes ih =>
    by_cases hfr : (dev h .readFr : UInt32) &&& frRxfe ≠ 0
    · exact ⟨[], [.readFr], readLoop_empty hfr, Nat.zero_le _, .readFr h⟩
    · obtain ⟨buf, qs, hrun, hle, htaken⟩ := ih (h ++ [.readFr] ++ [.readDr])
      refine ⟨_, _, readLoop_ready hfr hrun, Nat.succ_le_succ hle, ?_⟩
      have hbyte := (Taken.readFr h).append (.readDr hd hsize (ready_of_readFr hd hfr))
      rw [List.append_assoc] at htaken
      exact hbyte.append htaken

/-- However bytes come in, `pl011_read` ends, what it has read are the next bytes of
the receiver in their order, it never reads an empty FIFO, and it has read at least
one byte if it may. -/
theorem pl011Read_receives (hd : ShowsFirst dev u arrivals) (hsize : 0 < u.size)
    (hlive : ∀ i, ∃ j ≥ i, arrivals j ≠ []) (nbytes : ℕ) (h : List Request) :
    ∃ buf qs, Program.Settles dev h (fun polls => pl011Read polls nbytes) buf qs ∧
      buf.length ≤ nbytes ∧ (0 < nbytes → buf ≠ []) ∧
      (u.after arrivals (h ++ qs)).taken = (u.after arrivals h).taken ++ buf ∧
      (u.after arrivals (h ++ qs)).empties = (u.after arrivals h).empties := by
  obtain ⟨qs, hwait, htaken, hready⟩ := @waitWhile_ready dev u arrivals h hd hsize hlive
  obtain ⟨buf, qs', hrun, hle, htaken'⟩ := readLoop_takes hd hsize nbytes (h ++ qs)
  have hall := htaken.append htaken'
  refine ⟨buf, qs ++ qs', hwait.bind ⟨0, fun _ _ => hrun⟩, hle, ?_, hall.taken, hall.empties⟩
  intro hpos hempty
  -- the byte that ended the wait is still there
  have hfr : ¬ (dev (h ++ qs) .readFr : UInt32) &&& frRxfe ≠ 0 := by
    rw [hd.flag]
    exact fill_ne_nil hsize (.inl hready)
  obtain ⟨n, rfl⟩ : ∃ n, nbytes = n + 1 := ⟨nbytes - 1, by omega⟩
  obtain ⟨rest, qs'', hrest, -⟩ := readLoop_takes hd hsize n (h ++ qs ++ [.readFr] ++ [.readDr])
  rw [readLoop_ready hfr hrest, hempty] at hrun
  cases hrun

/-- A PL011 of which only the receiver is in use. -/
def receiving (u : Receiver) (arrivals : ℕ → List UInt8) : Device
  | h, .readFr => if ((u.after arrivals h).fill (arrivals h.length)).fifo = [] then frRxfe else 0
  | h, .readDr => (((u.after arrivals h).fill (arrivals h.length)).fifo.headD 0).toUInt32
  | _, .writeDr _ => ()

theorem showsFirst_receiving (u : Receiver) (arrivals : ℕ → List UInt8) :
    ShowsFirst (receiving u arrivals) u arrivals := by
  constructor
  · intro h
    simp only [receiving]
    split_ifs with hempty
    · exact iff_of_true (by decide) hempty
    · exact iff_of_false (by decide) hempty
  · intro h b rest hfifo
    simp [receiving, hfifo]

def emptyFifo : Receiver := { size := 2, fifo := [], taken := [], empties := 0 }

/-- Two bytes come in before every third access. -/
def twoEveryThird (i : ℕ) : List UInt8 := if i % 3 = 2 then [0x61, 0x62] else []

theorem emptyFifo_receives :
    ∃ buf qs,
      Program.Settles (receiving emptyFifo twoEveryThird) [] (fun polls => pl011Read polls 8) buf qs ∧
      buf.length ≤ 8 ∧ (0 < 8 → buf ≠ []) ∧
      (emptyFifo.after twoEveryThird ([] ++ qs)).taken = [] ++ buf ∧
      (emptyFifo.after twoEveryThird ([] ++ qs)).empties = 0 := by
  have hlive : ∀ i, ∃ j ≥ i, twoEveryThird j ≠ [] := by
    intro i
    refine ⟨3 * i + 2, by omega, ?_⟩
    rw [twoEveryThird, if_pos (by omega)]
    decide
  exact pl011Read_receives (showsFirst_receiving emptyFifo twoEveryThird) (by decide) hlive 8 []

end Receive

end Gandr.Uart.Fifo

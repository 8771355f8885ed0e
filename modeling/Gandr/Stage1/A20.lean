import Gandr.Lib.Program
import Mathlib.Tactic

/-! The A20 gate: `bal/platform/bios/stage1/a20.S`. The hardware answers the ports, the
firmware and memory as it likes; a wait that does not end within the polls it is given
is stuck. -/

namespace Gandr.Stage1.A20

inductive Request where
  | inb (port : ℕ)
  | outb (port : ℕ) (al : UInt8)
  | int15 (ax : UInt16)
  | load (address : ℕ)
  | store (address : ℕ) (al : UInt8)
  deriving DecidableEq

/-- What int 0x15 leaves in the registers. -/
structure Int15Reply where
  carry : Bool
  ah : UInt8
  bx : UInt16

abbrev Reply : Request → Type
  | .inb _ => UInt8
  | .outb _ _ => Unit
  | .int15 _ => Int15Reply
  | .load _ => UInt8
  | .store _ _ => Unit

abbrev Code := Program Reply

abbrev Hardware := Environment Reply

def inb (port : ℕ) : Code UInt8 := .ask (.inb port) .done

def outb (port : ℕ) (al : UInt8) : Code Unit := .ask (.outb port al) .done

def int15 (ax : UInt16) : Code Int15Reply := .ask (.int15 ax) .done

/-- The loop of `kyb_wait_input_buf` and `kyb_wait_output_buf`, until the bit is clear. -/
def kybWait (bit : UInt8) : (polls : ℕ) → Code Unit
  | 0 => .stuck
  | polls + 1 => do
    let al ← inb 0x64
    if al &&& bit ≠ 0 then kybWait bit polls else pure ()

def kybWaitInputBuf (polls : ℕ) : Code Unit := kybWait 2 polls

def kybWaitOutputBuf (polls : ℕ) : Code Unit := kybWait 1 polls

/-- `a20_check`: the carry flag. -/
def a20Check : Code Bool :=
  .ask (.store 0x504 0x00) fun _ => .ask (.store 0x100504 0xFF) fun _ =>
    .ask (.load 0x504) fun (al : UInt8) => .done (al != 0xFF)

inductive Exit where
  | returned
  | aborted (text : String)
  deriving DecidableEq

def a20Error : Exit := .aborted "Cannot enable the A20 gate."

/-- The gate through the keyboard controller. -/
def viaKeyboard (polls : ℕ) : Code Unit := do
  kybWaitInputBuf polls
  outb 0x64 0xAD
  kybWaitInputBuf polls
  outb 0x64 0xD0
  kybWaitOutputBuf polls
  let al ← inb 0x60
  kybWaitInputBuf polls
  outb 0x64 0xD1
  kybWaitInputBuf polls
  outb 0x60 (al ||| 2)
  kybWaitInputBuf polls
  outb 0x64 0xAE
  kybWaitInputBuf polls

/-- The gate through port 0x92, if the firmware says that there is one. -/
def viaPort92 : Code Exit := do
  let r ← int15 0x2403
  if r.carry then pure a20Error
  else if r.ah ≠ 0 then pure a20Error
  else if r.bx &&& 2 = 0 then pure a20Error
  else do
    let al ← inb 0x92
    if al &&& 2 ≠ 0 then pure a20Error
    else do
      outb 0x92 ((al ||| 2) &&& 0xFE)
      let on ← a20Check
      pure (if on then .returned else a20Error)

/-- From the label `0` on. -/
def withoutFirmware (polls : ℕ) : Code Exit := do
  viaKeyboard polls
  let on ← a20Check
  if on then pure .returned else viaPort92

def a20Enable (polls : ℕ) : Code Exit := do
  let on ← a20Check
  if on then pure .returned
  else do
    let r ← int15 0x2401
    if r.carry then withoutFirmware polls
    else if r.ah ≠ 0 then withoutFirmware polls
    else do
      let on ← a20Check
      if on then pure .returned else withoutFirmware polls

/-- The gate as the processor sees it: while it is closed, `0x100504` is `0x504`.
`gate` is open or not after the given requests; memory accesses do not move it. -/
structure Gated (hw : Hardware) (gate : List Request → Bool) : Prop where
  aliases : ∀ h, hw (h ++ [.store 0x504 0x00, .store 0x100504 0xFF]) (.load 0x504) =
    (if gate h then 0x00 else 0xFF : UInt8)
  memory : ∀ h, gate (h ++ [.store 0x504 0x00, .store 0x100504 0xFF, .load 0x504]) = gate h

/-- What may be written to port 0x92: the gate is opened, the machine is not reset. -/
def Safe : Request → Prop
  | .outb 0x92 al => al &&& 1 = 0 ∧ al &&& 2 ≠ 0
  | _ => True

section Enable

variable {hw : Hardware} {gate : List Request → Bool}

/-- `a20_check` finds out about the gate. -/
theorem a20Check_run (hg : Gated hw gate) (h : List Request) : a20Check.run hw h =
    some (gate h, [.store 0x504 0x00, .store 0x100504 0xFF, .load 0x504]) := by
  have hal := hg.aliases h
  simp only [a20Check, Program.run, Option.map_some, List.append_assoc, List.cons_append,
    List.nil_append, hal]
  cases gate h <;> rfl

theorem a20Check_yields (hg : Gated hw gate) (h : List Request) :
    Program.Yields hw (fun on h' => on = gate h') h a20Check := by
  intro on qs hrun
  rw [a20Check_run hg h] at hrun
  cases hrun
  exact (hg.memory h).symm

theorem kybWait_asks (bit : UInt8) (polls : ℕ) : Program.Asks Safe (kybWait bit polls) := by
  induction polls with
  | zero => exact trivial
  | succ polls ih =>
    refine Program.Asks.bind (p := inb 0x64) ⟨trivial, fun _ => trivial⟩ fun al => ?_
    split_ifs
    · exact ih
    · exact trivial

theorem inb_asks {port : ℕ} : Program.Asks Safe (inb port) := ⟨trivial, fun _ => trivial⟩

theorem int15_asks {ax : UInt16} : Program.Asks Safe (int15 ax) := ⟨trivial, fun _ => trivial⟩

theorem a20Check_asks : Program.Asks Safe a20Check :=
  ⟨trivial, fun _ => ⟨trivial, fun _ => ⟨trivial, fun _ => trivial⟩⟩⟩

theorem safe_port92 (al : UInt8) : Safe (.outb 0x92 ((al ||| 2) &&& 0xFE)) := by
  refine ⟨?_, ?_⟩
  · rw [UInt8.and_assoc]
    exact UInt8.and_zero
  · have hbit : (al ||| 2) &&& 2 = 2 := by
      rw [← UInt8.toBitVec_inj]
      ext i hi
      simp only [UInt8.toBitVec_and, UInt8.toBitVec_or, BitVec.getElem_and, BitVec.getElem_or]
      grind
    rw [UInt8.and_assoc, show (0xFE &&& 2 : UInt8) = 2 from rfl, hbit]
    decide

theorem viaKeyboard_asks (polls : ℕ) : Program.Asks Safe (viaKeyboard polls) := by
  have hwait : ∀ bit, Program.Asks Safe (kybWait bit polls) := fun bit => kybWait_asks bit polls
  have hcommand : ∀ al, Program.Asks Safe (outb 0x64 al) := fun al => ⟨trivial, fun _ => trivial⟩
  have hdata : ∀ al, Program.Asks Safe (outb 0x60 al) := fun al => ⟨trivial, fun _ => trivial⟩
  refine (hwait 2).bind fun _ => (hcommand 0xAD).bind fun _ => (hwait 2).bind fun _ =>
    (hcommand 0xD0).bind fun _ => (hwait 1).bind fun _ => inb_asks.bind fun al =>
    (hwait 2).bind fun _ => (hcommand 0xD1).bind fun _ => (hwait 2).bind fun _ =>
    (hdata (al ||| 2)).bind fun _ => (hwait 2).bind fun _ => (hcommand 0xAE).bind fun _ => hwait 2

theorem viaPort92_asks : Program.Asks Safe viaPort92 := by
  refine int15_asks.bind fun r => ?_
  split_ifs
  iterate 3 exact trivial
  refine inb_asks.bind fun al => ?_
  split_ifs
  · exact trivial
  · refine Program.Asks.bind (p := outb 0x92 _) ⟨safe_port92 al, fun _ => trivial⟩ fun _ => ?_
    exact a20Check_asks.bind fun _ => trivial

theorem withoutFirmware_asks (polls : ℕ) : Program.Asks Safe (withoutFirmware polls) := by
  refine (viaKeyboard_asks polls).bind fun _ => a20Check_asks.bind fun on => ?_
  split_ifs
  · exact trivial
  · exact viaPort92_asks

theorem a20Enable_asks (polls : ℕ) : Program.Asks Safe (a20Enable polls) := by
  refine a20Check_asks.bind fun on => ?_
  split_ifs
  · exact trivial
  refine int15_asks.bind fun r => ?_
  split_ifs
  iterate 2 exact withoutFirmware_asks polls
  refine a20Check_asks.bind fun on => ?_
  split_ifs
  · exact trivial
  · exact withoutFirmware_asks polls

/-- A way to open the gate returns only if the gate is open. -/
abbrev Opens (hw : Hardware) (gate : List Request → Bool) (p : Code Exit) : Prop :=
  ∀ h, Program.Yields hw (fun e h' => e = .returned → gate h' = true) h p

theorem yields_true {α : Type} (h : List Request) (p : Code α) :
    Program.Yields hw (fun _ _ => True) h p := fun _ _ _ => trivial

theorem yields_error (h : List Request) :
    Program.Yields hw (fun e h' => e = .returned → gate h' = true) h (pure a20Error : Code Exit) :=
  Program.Yields.pure fun he => by cases he

theorem viaPort92_opens (hg : Gated hw gate) : Opens hw gate viaPort92 := by
  intro h
  refine (yields_true h (int15 0x2403)).bind fun r h₁ _ => ?_
  split_ifs
  iterate 3 exact yields_error h₁
  refine (yields_true h₁ (inb 0x92)).bind fun al h₂ _ => ?_
  split_ifs
  · exact yields_error h₂
  refine (yields_true h₂ (outb 0x92 _)).bind fun _ h₃ _ => ?_
  refine (a20Check_yields hg h₃).bind fun on h₄ hon => Program.Yields.pure fun he => ?_
  cases on with
  | true => exact hon.symm
  | false => cases he

theorem checked_opens (hg : Gated hw gate) {p : Code Exit} (hp : Opens hw gate p) :
    Opens hw gate (a20Check >>= fun on => if on then pure .returned else p) := by
  intro h
  refine (a20Check_yields hg h).bind fun on h₁ hon => ?_
  split_ifs with hopen
  · refine Program.Yields.pure fun _ => ?_
    rw [← hon, hopen]
  · exact hp h₁

theorem withoutFirmware_opens (hg : Gated hw gate) (polls : ℕ) :
    Opens hw gate (withoutFirmware polls) := fun h =>
  (yields_true h (viaKeyboard polls)).bind fun _ h₁ _ => checked_opens hg (viaPort92_opens hg) h₁

theorem a20Enable_opens (hg : Gated hw gate) (polls : ℕ) : Opens hw gate (a20Enable polls) := by
  refine checked_opens hg fun h => ?_
  refine (yields_true h (int15 0x2401)).bind fun r h₁ _ => ?_
  split_ifs
  iterate 2 exact withoutFirmware_opens hg polls h₁
  exact checked_opens hg (withoutFirmware_opens hg polls) h₁

/-- The gate is open when `a20_enable` returns, and port 0x92 was never written with
the bit that resets the machine. -/
theorem a20Enable_run (hg : Gated hw gate) (polls : ℕ) {h qs : List Request} {e : Exit}
    (hrun : (a20Enable polls).run hw h = some (e, qs)) :
    (e = .returned → gate (h ++ qs) = true) ∧ ∀ q ∈ qs, Safe q :=
  ⟨a20Enable_opens hg polls h e qs hrun, (a20Enable_asks polls).run hrun⟩

/-- A machine whose firmware opens the gate. -/
def firmwareGate : Hardware := fun h q =>
  match q with
  | .inb _ => (0 : UInt8)
  | .outb _ _ => ()
  | .int15 _ => (⟨false, 0, 0⟩ : Int15Reply)
  | .load _ => (if .int15 0x2401 ∈ h then 0x00 else 0xFF : UInt8)
  | .store _ _ => ()

theorem firmwareGate_opens : ∃ qs, (a20Enable 1).run firmwareGate [] = some (.returned, qs) ∧
    decide (Request.int15 0x2401 ∈ qs) = true := by
  have hg : Gated firmwareGate (fun h => decide (.int15 0x2401 ∈ h)) := by
    refine ⟨fun h => ?_, fun h => ?_⟩
    · simp only [firmwareGate, List.mem_append, List.mem_cons, reduceCtorEq, List.not_mem_nil,
        or_false, decide_eq_true_eq]
    · simp
  refine ⟨_, rfl, ?_⟩
  have hopen := (a20Enable_run hg 1 (h := []) rfl).1 rfl
  rwa [List.nil_append] at hopen

end Enable

section Keyboard

variable {hw : Hardware} {gate : List Request → Bool}

/-- A keyboard controller that answers the command 0xD0 at once: its output buffer is
full until port 0x60 is read. -/
def Prompt (hw : Hardware) : Prop := ∀ h n,
  (hw (h ++ [.outb 0x64 0xD0] ++ List.replicate n (.inb 0x64)) (.inb 0x64) : UInt8) &&& 1 ≠ 0

theorem kybWaitOutputBuf_hangs (hp : Prompt hw) (h : List Request) (polls n : ℕ) :
    Program.Yields hw (fun _ _ => False)
      (h ++ [.outb 0x64 0xD0] ++ List.replicate n (.inb 0x64)) (kybWaitOutputBuf polls) := by
  induction polls generalizing n with
  | zero =>
    intro a qs hrun
    cases hrun
  | succ polls ih =>
    refine Program.Yields.ask ?_
    change Program.Yields hw _ _ (if _ then _ else _)
    rw [if_pos (hp h n), List.append_assoc _ (List.replicate n _), ← List.replicate_succ']
    exact ih (n + 1)

theorem viaKeyboard_hangs (hp : Prompt hw) (polls : ℕ) (h : List Request) :
    Program.Yields hw (fun _ _ => False) h (viaKeyboard polls) := by
  unfold viaKeyboard
  refine (yields_true h _).bind fun _ h₁ _ => (yields_true h₁ _).bind fun _ h₂ _ =>
    (yields_true h₂ _).bind fun _ h₃ _ => ?_
  have hcommand : Program.Yields hw (fun _ h' => h' = h₃ ++ [.outb 0x64 0xD0]) h₃ (outb 0x64 0xD0) :=
    Program.Yields.ask (Program.Yields.pure rfl)
  refine hcommand.bind fun _ h₄ hh₄ => ?_
  have hwait := kybWaitOutputBuf_hangs hp h₃ polls 0
  rw [List.replicate_zero, List.append_nil, ← hh₄] at hwait
  exact hwait.bind fun _ _ hfalse => hfalse.elim

/-- With such a controller and a firmware that does not open the gate `a20_enable`
does not come to an end: it waits for the answer to go away before it reads it. -/
theorem a20Enable_hangs (hp : Prompt hw) (hg : Gated hw gate)
    (hclosed : ∀ h, (∀ port al, Request.outb port al ∉ h) → gate h = false) (polls : ℕ) :
    (a20Enable polls).run hw [] = none := by
  have hend : Program.Yields hw (fun _ _ => False) [] (a20Enable polls) := by
    -- the requests of the first checks are no writes to ports
    have hcheck : ∀ h, (∀ port al, Request.outb port al ∉ h) → Program.Yields hw
        (fun on h' => on = false ∧ ∀ port al, Request.outb port al ∉ h') h a20Check := by
      intro h hno on qs hrun
      rw [a20Check_run hg h] at hrun
      cases hrun
      refine ⟨hclosed h hno, fun port al hmem => ?_⟩
      rcases List.mem_append.mp hmem with hmem | hmem
      · exact hno port al hmem
      · simp at hmem
    have hrest : ∀ h, Program.Yields hw (fun _ _ => False) h (withoutFirmware polls) := fun h =>
      (viaKeyboard_hangs hp polls h).bind fun _ _ hfalse => hfalse.elim
    refine (hcheck [] (by simp)).bind fun on h₁ hon => ?_
    rw [hon.1, if_neg Bool.false_ne_true]
    have hask : Program.Yields hw (fun _ h' => h' = h₁ ++ [.int15 0x2401]) h₁ (int15 0x2401) :=
      Program.Yields.ask (Program.Yields.pure rfl)
    refine hask.bind fun r h₂ hh₂ => ?_
    have hno : ∀ port al, Request.outb port al ∉ h₂ := by
      intro port al hmem
      rw [hh₂, List.mem_append] at hmem
      rcases hmem with hmem | hmem
      · exact hon.2 port al hmem
      · simp at hmem
    split_ifs
    iterate 2 exact hrest h₂
    refine (hcheck h₂ hno).bind fun on h₃ hon => ?_
    rw [hon.1, if_neg Bool.false_ne_true]
    exact hrest h₃
  cases hrun : (a20Enable polls).run hw [] with
  | none => rfl
  | some r => exact (hend r.1 r.2 hrun).elim

/-- A machine whose gate stays closed, and whose controller always has an answer. -/
def closedGate : Hardware := fun _ q =>
  match q with
  | .inb _ => (1 : UInt8)
  | .outb _ _ => ()
  | .int15 _ => (⟨true, 0x86, 0⟩ : Int15Reply)
  | .load _ => (0xFF : UInt8)
  | .store _ _ => ()

theorem closedGate_hangs : Gated closedGate (fun _ => false) ∧
    ∀ polls, (a20Enable polls).run closedGate [] = none := by
  have hg : Gated closedGate (fun _ => false) := ⟨fun _ => rfl, fun _ => rfl⟩
  refine ⟨hg, a20Enable_hangs (fun _ _ => ?_) hg fun _ _ => rfl⟩
  exact show (1 : UInt8) &&& 1 ≠ 0 by decide

end Keyboard

end Gandr.Stage1.A20

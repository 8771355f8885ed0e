import Gandr.Lib.Fallible
import Gandr.Stage1.Boot

/-! What `init.S` needs of the driver of the boot device, and what it does with any
driver that has it: the file that fits the processor is loaded as a whole and entered in
its mode. -/

namespace Gandr.Stage1

open Bios.Cdrom (Memory le read32)
open Bios.Bytes

/-- The name that `init.S` has patched, without what a device appends to it. -/
def balName (chars : ℕ) : CString := CString.ofString "gd_bal." ++ le 2 chars

/-- A driver serves `files`: with the name in its place it opens the file of that name,
and what is open is loaded as a whole if it `fits`. It may always fail. -/
structure Drives {σ ε : Type} (I : Image) (S : Storage σ ε) (fails : ε → Prop)
    (files : CString → Option (List UInt8)) (fits : List UInt8 → Prop) (idle : Machine σ → Prop)
    (opened : List UInt8 → Machine σ → Prop) : Prop where
  idle_set : ∀ v m, idle m → idle (setIs64bit I v m)
  opened_set : ∀ v f m, opened f m → opened f (setIs64bit I v m)
  fileOpen : ∀ chars m, (0 : UInt8) ∉ le 2 chars → idle m →
    match files (balName chars) with
    | none => Gives fails (fun r => r.1 ≠ 0 ∧ idle r.2) (S.fileOpen I.bal (patchName I chars m))
    | some f => fits f → Gives fails (fun r => r.1 = 0 ∧ opened f r.2 ∧
        r.2.mem I.balIs64bit = m.mem I.balIs64bit) (S.fileOpen I.bal (patchName I chars m))
  load : ∀ f m, fits f → opened f m →
    Gives fails (fun m' => m'.mem I.balIs64bit = m.mem I.balIs64bit ∧
        ∀ i (hi : i < f.length), m'.mem (balLoadAddress + i) = f[i])
      (S.fileRead balLoadAddress m >>= S.fileClose)

variable {σ ε : Type} {I : Image} {S : Storage σ ε} {fails : ε → Prop}
  {files : CString → Option (List UInt8)} {fits : List UInt8 → Prop} {idle : Machine σ → Prop}
  {opened : List UInt8 → Machine σ → Prop} {m : Machine σ}

@[simp] theorem is64bit_setIs64bit (v : UInt8) (m : Machine σ) :
    (setIs64bit I v m).mem I.balIs64bit = v :=
  Bios.Cdrom.store_apply m.mem I.balIs64bit [v] 0

/-- What `openBal` is to do. -/
def OpensBal (S : Storage σ ε) (fails : ε → Prop) (fits : List UInt8 → Prop)
    (opened : List UInt8 → Machine σ → Prop) (is64bit : ℕ) :
    Option (Bool × List UInt8) → Except ε (Machine σ) → Prop
  | none, x => Gives (fun e => e = S.abort noBalErrorMsg ∨ fails e) (fun _ => False) x
  | some (mode, f), x => fits f →
    Gives fails (fun m => opened f m ∧ m.mem is64bit = if mode then 1 else 0) x

theorem open32_drives (hd : Drives I S fails files fits idle opened) (hm : idle m) :
    OpensBal S fails fits opened I.balIs64bit (selection false files) (open32 I S m) := by
  have hopen := hd.fileOpen 0x3233 _ (by decide) (hd.idle_set 0 m hm)
  have hname : balName 0x3233 = CString.ofString "gd_bal.32" := rfl
  rw [hname] at hopen
  rw [open32]
  cases hfile : files (CString.ofString "gd_bal.32") with
  | none =>
    simp only [hfile] at hopen
    have hnone : selection false files = none := by simp [selection, hfile]
    rw [hnone]
    refine (hopen.imp (fun e => .inr) fun r => id).bind ?_
    rintro ⟨eax, m'⟩ ⟨heax, -⟩
    dsimp only at heax ⊢
    rw [if_pos heax]
    exact .inl rfl
  | some f =>
    simp only [hfile] at hopen
    have hsome : selection false files = some (false, f) := by simp [selection, hfile]
    rw [hsome]
    intro hfits
    refine (hopen hfits).bind ?_
    rintro ⟨eax, m'⟩ ⟨heax, ho, hmode⟩
    rw [is64bit_setIs64bit] at hmode
    dsimp only at heax ⊢
    rw [if_neg (not_not.mpr heax)]
    exact ⟨ho, hmode⟩

/-- The file for long mode is opened if the processor can run it and it is there. -/
theorem openBal_drives (hd : Drives I S fails files fits idle opened) (hm : idle m)
    (cpu : Processor) :
    OpensBal S fails fits opened I.balIs64bit (selection cpu.longMode files)
      (openBal I S cpu m) := by
  rw [openBal]
  cases hmode : cpu.longMode with
  | false => exact open32_drives hd hm
  | true =>
    have hopen := hd.fileOpen 0x3436 m (by decide) hm
    have hname : balName 0x3436 = CString.ofString "gd_bal.64" := rfl
    rw [hname] at hopen
    rw [if_pos rfl]
    cases hfile : files (CString.ofString "gd_bal.64") with
    | none =>
      -- there is no such file, and the other one is looked for
      simp only [hfile] at hopen
      have hother : selection true files = selection false files := by simp [selection, hfile]
      have hnext : ∀ r : UInt32 × Machine σ, r.1 ≠ 0 ∧ idle r.2 →
          OpensBal S fails fits opened I.balIs64bit (selection false files)
            (if r.1 ≠ 0 then open32 I S r.2 else .ok (setIs64bit I 1 r.2)) := by
        rintro ⟨eax, m'⟩ ⟨heax, hm'⟩
        rw [if_pos heax]
        exact open32_drives hd hm'
      rw [hother]
      cases hsel : selection false files with
      | none =>
        rw [hsel] at hnext
        exact (hopen.imp (fun e => .inr) fun r => id).bind hnext
      | some s =>
        rw [hsel] at hnext
        exact fun hfits => hopen.bind fun r hr => hnext r hr hfits
    | some f =>
      simp only [hfile] at hopen
      have hsome : selection true files = some (true, f) := by simp [selection, hfile]
      rw [hsome]
      intro hfits
      refine (hopen hfits).bind ?_
      rintro ⟨eax, m'⟩ ⟨heax, ho, -⟩
      dsimp only at heax ⊢
      rw [if_neg (not_not.mpr heax)]
      exact ⟨hd.opened_set 1 f m' ho, is64bit_setIs64bit 1 m'⟩

/-- What is in the file is what is entered. -/
theorem goStage2_loaded {f : List UInt8} {mode : Bool} (hlen : 8 ≤ f.length)
    (hmode : m.mem I.balIs64bit = if mode then 1 else 0)
    (hbytes : ∀ i (hi : i < f.length), m.mem (balLoadAddress + i) = f[i]) :
    (goStage2 I m).1 = ⟨if mode then 0x28 else 0x18, read32 (fun i => (f[i]?).getD 0) 4, 0x10000,
        I.apiTable⟩ ∧
      ∀ i (hi : i < f.length), (goStage2 I m).2.mem (0x10000 + i) = f[i] := by
  have hentry := I.entry_le
  have hbyte : ∀ i < 8, m.mem (balLoadAddress + i) = (f[i]?).getD 0 := by
    intro i hi
    rw [hbytes i (by omega), List.getElem?_eq_getElem (by omega), Option.getD_some]
  have hpoint : read32 m.mem (balLoadAddress + 4) = read32 (fun i => (f[i]?).getD 0) 4 := by
    change read32 (fun i => m.mem (balLoadAddress + i)) 4 = _
    exact read32_congr fun k hk => hbyte (4 + k) (by omega)
  constructor
  · rw [goStage2_fst, hmode, hpoint]
    cases mode <;> rfl
  · intro i hi
    rw [mem_goStage2 I m (by omega)]
    exact hbytes i hi

/-- The boot with a driver that serves files: the file that fits the processor is loaded
as a whole and is entered in its mode, and without one the boot is aborted. -/
theorem boot_drives (hd : Drives I S fails files fits idle opened) (cpu : Processor)
    {a20Enable : Machine σ → Except ε (Machine σ)} {m₀ : Machine σ}
    (hcpu : checkProcessor S cpu = .ok ()) (hstart : Gives fails idle (S.init m₀ >>= a20Enable)) :
    match selection cpu.longMode files with
    | none => Gives (fun e => e = S.abort noBalErrorMsg ∨ fails e) (fun _ => False)
        (boot I S cpu a20Enable m₀)
    | some (mode, f) => fits f → 8 ≤ f.length →
        Gives fails (fun r => r.1 = ⟨if mode then 0x28 else 0x18,
            read32 (fun i => (f[i]?).getD 0) 4, 0x10000, I.apiTable⟩ ∧
          ∀ i (hi : i < f.length), r.2.mem (0x10000 + i) = f[i]) (boot I S cpu a20Enable m₀) := by
  have hboot : boot I S cpu a20Enable m₀ =
      (do
        let m ← S.init m₀ >>= a20Enable
        let m ← openBal I S cpu m
        let m ← S.fileRead balLoadAddress m >>= S.fileClose
        .ok (goStage2 I m)) := by
    simp only [boot, hcpu, bind_assoc]
    rfl
  rw [hboot]
  cases hsel : selection cpu.longMode files with
  | none =>
    refine (hstart.imp (fun e => .inr) fun m => id).bind fun m hm => ?_
    have hopen := openBal_drives hd hm cpu
    rw [hsel] at hopen
    exact Gives.bind hopen fun m h => h.elim
  | some s =>
    obtain ⟨mode, f⟩ := s
    intro hfits hlen
    refine hstart.bind fun m hm => ?_
    have hopen := openBal_drives hd hm cpu
    rw [hsel] at hopen
    refine (hopen hfits).bind ?_
    rintro m' ⟨ho, hmode⟩
    refine (hd.load f m' hfits ho).bind ?_
    rintro m'' ⟨hkeep, hbytes⟩
    exact goStage2_loaded hlen (hkeep.trans hmode) hbytes

end Gandr.Stage1

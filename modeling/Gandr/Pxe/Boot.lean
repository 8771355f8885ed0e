import Gandr.Pxe.Entry
import Gandr.Pxe.Serve
import Gandr.Stage1.Driver

/-! Booting from a network: `init.S` with the driver of `pxe/storage.S`. The file for
long mode is taken if the processor has long mode and the server the file, else the
other one. -/

namespace Gandr.Pxe

open Bios.Cdrom (Memory le read16 read32)
open Bios.Bytes
open Stage1 (Machine Processor)

variable {σ : Type}

/-- The variables of `init.S` are not among those of `storage.S`, the name is in its
place, and the word that `file_open` takes for a limit is large enough and is not
written to. -/
structure Bootable (I : Image) (J : Stage1.Image) (mem : Memory) : Prop where
  chars : ∀ i < 7, mem (J.bal + i) = ((CString.ofString "gd_bal.")[i]?).getD 0
  ends : mem (J.bal + 9) = 0
  bal_apart : J.bal + 10 ≤ I.bss ∨ I.bss + 161 ≤ J.bal
  is64bit_apart : J.balIs64bit < I.bss ∨ I.bss + 161 ≤ J.balIs64bit
  limit : 9 < rounds (read16 mem (J.bal / 2^4 * 2^4 + 122))
  limit_low : J.bal / 2^4 * 2^4 + 124 ≤ 0x3000
  limit_apart : J.bal / 2^4 * 2^4 + 124 ≤ I.bss ∨ I.bss + 161 ≤ J.bal / 2^4 * 2^4 + 122
  limit_kept : J.balIs64bit < J.bal / 2^4 * 2^4 + 122 ∨ J.bal / 2^4 * 2^4 + 124 ≤ J.balIs64bit

namespace Bootable

variable {I : Image} {J : Stage1.Image} {a b : Memory}

/-- It is enough that the name and the limit have not changed. -/
theorem congr (h : Bootable I J a) (hname : ∀ i, i < 7 ∨ i = 9 → b (J.bal + i) = a (J.bal + i))
    (hlimit : ∀ i < 2, b (J.bal / 2^4 * 2^4 + 122 + i) = a (J.bal / 2^4 * 2^4 + 122 + i)) :
    Bootable I J b :=
  { h with
    chars := fun i hi => by rw [hname i (.inl hi), h.chars i hi]
    ends := by rw [hname 9 (.inr rfl), h.ends]
    limit := by rw [read16_congr hlimit]; exact h.limit }

theorem spares (h : Bootable I J a) {own : ℕ → Prop} (hown : ∀ x, own x → 0x3000 ≤ x)
    (hkeep : Spares own (Variable I) a b) : Bootable I J b := by
  have hbal := J.bal_le
  have hlow := h.limit_low
  have hopen : I.tftpOpen = I.bss + 5 := rfl
  refine h.congr ?_ ?_
  · intro i hi
    have hapart := h.bal_apart
    refine hkeep _ (fun ho => ?_) ?_
    · have := hown _ ho
      omega
    · simp only [Variable, Within]
      omega
  · intro i hi
    have hapart := h.limit_apart
    refine hkeep _ (fun ho => ?_) ?_
    · have := hown _ ho
      omega
    · simp only [Variable, Within]
      omega

theorem setIs64bit (v : UInt8) {m : Machine σ} (h : Bootable I J m.mem) :
    Bootable I J (Stage1.setIs64bit J v m).mem := by
  have hlimit := h.limit_kept
  have hapart := J.is64bit_apart
  refine h.congr (fun i hi => ?_) fun i hi => ?_
  all_goals
    refine Bios.Cdrom.store_outside _ ?_
    rw [List.length_singleton]
    omega

theorem patchName (chars : ℕ) {m : Machine σ} (h : Bootable I J m.mem) :
    Bootable I J (Stage1.patchName J chars m).mem := by
  refine h.congr (fun i hi => ?_) fun i hi => ?_
  all_goals
    refine Bios.Cdrom.store_outside _ ?_
    rw [Bios.Cdrom.length_le]
    omega

/-- With the two characters in it, the name can be copied. -/
theorem copied (chars : ℕ) {s : CString} {m : Machine σ} (h : Bootable I J m.mem)
    (hs : s = CString.ofString "gd_bal." ++ le 2 chars) (hzero : (0 : UInt8) ∉ s) :
    Copied I J.bal s (Stage1.patchName J chars m).mem := by
  have hlen : s.length = 9 := by
    rw [hs, List.length_append, Bios.Cdrom.length_le]
    rfl
  have hp := h.patchName chars
  have hbal := J.bal_le
  refine ⟨hzero, ?_, by omega, ?_, by omega, ?_, h.limit_apart⟩
  · intro i hi
    rw [hlen] at hi
    by_cases hfirst : i < 7
    · rw [hp.chars i hfirst, hs, List.getElem?_append_left (by exact hfirst)]
    · by_cases hend : i = 9
      · rw [hend, hp.ends, List.getElem?_eq_none (by omega), Option.getD_none]
      · have hchar := Bios.Cdrom.store_apply m.mem (J.bal + 7) (le 2 chars) (i - 7)
        rw [show J.bal + 7 + (i - 7) = J.bal + i by omega] at hchar
        have hi' : i - 7 < (le 2 chars).length := by
          rw [Bios.Cdrom.length_le]
          omega
        rw [Stage1.mem_patchName, hchar, hs, List.getElem?_append_right (by exact Nat.le_of_not_lt hfirst),
          show (CString.ofString "gd_bal.").length = 7 from rfl, List.getElem?_eq_getElem hi']
        rfl
  · have := h.bal_apart
    omega
  · rw [hlen]
    exact hp.limit

end Bootable

section Boot

variable {I : Image} {J : Stage1.Image} {api : Api σ} {entry : ℕ} {own : ℕ → Prop}
  {volume : CString → Option (List UInt8)} {session : σ → Option (List UInt8 × ℕ)}
  {m : Machine σ} {f : List UInt8} (es bx ss sp : UInt16)

/-- No file is open. -/
structure Idle (I : Image) (J : Stage1.Image) (entry : ℕ) (m : Machine σ) : Prop where
  entry : read32 m.mem I.apiAddr = entry
  bootable : Bootable I J m.mem

/-- The file is open, and nothing of it has come. -/
structure Opened (I : Image) (J : Stage1.Image) (entry : ℕ)
    (session : σ → Option (List UInt8 × ℕ)) (f : List UInt8) (m : Machine σ) : Prop extends
    Idle I J entry m where
  session : session m.firmware = some (f, 0)
  size : read32 m.mem I.fileSize = f.length

/-- What can be loaded without reaching the end of real mode memory or the memory of the
firmware. -/
def Fits (own : ℕ → Prop) (f : List UInt8) : Prop :=
  f.length ≤ 0xF0000 ∧ ∀ x, Within 0x10000 f.length x → ¬ own x

/-- A write outside the variables of `storage.S` leaves a number among them. -/
theorem read32_store_apart {a x : ℕ} {vs : List UInt8} (hx : I.bss ≤ x ∧ x + 4 ≤ I.bss + 161)
    (h : a + vs.length ≤ I.bss ∨ I.bss + 161 ≤ a) :
    read32 (m.mem.store a vs) x = read32 m.mem x :=
  read32_congr fun i _ => Bios.Cdrom.store_outside _ (by omega)

theorem Idle.patchName (h : Idle I J entry m) (chars : ℕ) :
    Idle I J entry (Stage1.patchName J chars m) := by
  have hapart := h.bootable.bal_apart
  refine ⟨?_, h.bootable.patchName chars⟩
  rw [← h.entry, Stage1.mem_patchName]
  refine read32_store_apart ⟨le_rfl, by rw [Image.apiAddr]; omega⟩ ?_
  rw [Bios.Cdrom.length_le]
  omega

theorem Idle.setIs64bit (h : Idle I J entry m) (v : UInt8) :
    Idle I J entry (Stage1.setIs64bit J v m) := by
  have hapart := h.bootable.is64bit_apart
  refine ⟨?_, h.bootable.setIs64bit v⟩
  rw [← h.entry, Stage1.mem_setIs64bit]
  refine read32_store_apart ⟨le_rfl, by rw [Image.apiAddr]; omega⟩ ?_
  rw [List.length_singleton]
  omega

theorem Idle.after (h : Idle I J entry m) (hs : Serves I api entry own volume session)
    {m' : Machine σ} (hkeep : Spares own (Variable I) m.mem m'.mem) : Idle I J entry m' :=
  ⟨entry_after hs h.entry hkeep, h.bootable.spares hs.own_high hkeep⟩

theorem Opened.setIs64bit (h : Opened I J entry session f m) (v : UInt8) :
    Opened I J entry session f (Stage1.setIs64bit J v m) := by
  have hapart := h.bootable.is64bit_apart
  have hfileSize : I.fileSize = I.bss + 157 := rfl
  refine ⟨h.toIdle.setIs64bit v, h.session, ?_⟩
  rw [← h.size, Stage1.mem_setIs64bit]
  refine read32_store_apart (I := I) (by omega) ?_
  rw [List.length_singleton]
  omega

/-- `bal_is_64bit` is kept by the driver. -/
theorem is64bit_after (hs : Serves I api entry own volume session) {a b : Memory}
    (hb : Bootable I J a) (hkeep : Spares own (Variable I) a b) :
    b J.balIs64bit = a J.balIs64bit := by
  have hlt := J.is64bit_lt
  have hapart := hb.is64bit_apart
  have hopen : I.tftpOpen = I.bss + 5 := rfl
  refine hkeep _ (fun ho => ?_) ?_
  · have := hs.own_high _ ho
    omega
  · simp only [Variable, Within]
    omega

theorem is64bit_patch (chars : ℕ) :
    (Stage1.patchName J chars m).mem J.balIs64bit = m.mem J.balIs64bit := by
  have hapart := J.is64bit_apart
  rw [Stage1.mem_patchName, Bios.Cdrom.store_outside]
  rw [Bios.Cdrom.length_le]
  omega

theorem zero_notMem_balName {chars : ℕ} (h : (0 : UInt8) ∉ le 2 chars) :
    (0 : UInt8) ∉ Stage1.balName chars := by
  rw [Stage1.balName, List.mem_append, not_or]
  exact ⟨by decide, h⟩

/-- The open file comes as a whole. -/
theorem load_serves (hs : Serves I api entry own volume session) (hfits : Fits own f)
    (ho : Opened I J entry session f m) :
    ∃ m₁ m₂, fileRead I api Stage1.balLoadAddress m = .ok m₁ ∧ fileClose I api m₁ = .ok m₂ ∧
      m₂.mem J.balIs64bit = m.mem J.balIs64bit ∧
      ∀ i (hi : i < f.length), m₂.mem (0x10000 + i) = f[i] := by
  have hbss := I.bss_le
  have hopen : I.tftpOpen = I.bss + 5 := rfl
  have htftp : I.tftpRead = I.bss + 147 := rfl
  obtain ⟨hroom, hfree⟩ := hfits
  obtain ⟨m₁, hread, hsession, hbytes, hkeep⟩ := fileRead_serves hs ho.entry ho.session ho.size
    0x10000 (by decide) (by decide) (by omega) hfree
  have hlow : ∀ x < 0x3000, ¬ Within I.tftpRead 10 x → m₁.mem x = m.mem x := by
    intro x hx hout
    refine hkeep x (fun ho => ?_) ?_
    · have := hs.own_high x ho
      omega
    · simp only [Within] at hout ⊢
      omega
  have hentry₁ : read32 m₁.mem I.apiAddr = entry := by
    rw [← ho.entry]
    refine read32_congr fun i hi => hlow _ ?_ ?_
    · rw [Image.apiAddr]
      omega
    · simp only [Within, Image.apiAddr]
      omega
  obtain ⟨m₂, hclose, hkeep₂⟩ := fileClose_serves hs hentry₁ hsession
  refine ⟨m₁, m₂, hread, hclose, ?_, ?_⟩
  · have hlt := J.is64bit_lt
    have hapart := ho.bootable.is64bit_apart
    rw [hkeep₂ _ (fun ho => ?_) (by simp only [Variable, Within]; omega),
      hlow _ hlt (by simp only [Within]; omega)]
    have := hs.own_high _ ho
    omega
  · intro i hi
    rw [hkeep₂ _ (hfree _ ⟨by omega, by omega⟩) (by simp only [Variable, Within]; omega),
      hbytes i hi]

/-- The network is a boot device that serves the files of the server. -/
theorem drives (hs : Serves I api entry own volume session) :
    Stage1.Drives J (storage I api es bx ss sp) (fun _ => False) (fun s => volume (bootName s))
      (Fits own) (Idle I J entry) (Opened I J entry session) where
  idle_set v _ hm := hm.setIs64bit v
  opened_set v _ _ ho := ho.setIs64bit v
  fileOpen chars m hzero hm := by
    have hcopied := hm.bootable.copied chars (s := Stage1.balName chars) rfl
      (zero_notMem_balName hzero)
    have hm' := hm.patchName chars
    split
    next hv =>
      obtain ⟨m', hopen, hkeep⟩ := fileOpen_missing hs hm'.entry hcopied hv
      simp only [storage, hopen]
      exact ⟨(by decide : (0xFFFFFFFF : UInt32) ≠ 0), hm'.after hs hkeep⟩
    next f hv =>
      intro hfits
      have hsize : f.length < 2^32 := by
        have := hfits.1
        omega
      obtain ⟨m', hopen, hsession, hlen, hkeep⟩ := fileOpen_found hs hm'.entry hcopied hv hsize
      simp only [storage, hopen]
      refine ⟨rfl, ⟨hm'.after hs hkeep, hsession, hlen⟩, ?_⟩
      rw [is64bit_after hs hm'.bootable hkeep, is64bit_patch]
  load f m hfits ho := by
    obtain ⟨m₁, m₂, hread, hclose, hkeep, hbytes⟩ := load_serves hs hfits ho
    have hrun : (fileRead I api Stage1.balLoadAddress m >>= fileClose I api) = .ok m₂ := by
      rw [hread]
      exact hclose
    simp only [storage, hrun]
    exact ⟨hkeep, hbytes⟩

end Boot

section Network

/-- A file of eight bytes, to be entered at its start. -/
def tinyBal : List UInt8 := [0x42, 0x41, 0x4C, 0x00, 0x00, 0x00, 0x01, 0x00]

/-- A server that has only the file for processors without long mode. -/
def onlyBal32 (s : CString) : Option (List UInt8) :=
  if s = bootName (CString.ofString "gd_bal.32") then some tinyBal else none

def someStage1 : Stage1.Image :=
  ⟨0x1020, 0x11B0, 0x11C0, 0x1050, by decide, by decide, by decide, by decide, by decide⟩

/-- A processor with long mode. -/
def amd64 : Processor := ⟨0, id, 0, id, fun _ => (0x80000001, 0x20000000)⟩

end Network

end Gandr.Pxe

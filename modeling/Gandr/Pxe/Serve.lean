import Gandr.Pxe.Storage

/-! Files from a TFTP server. `Serves` says what the firmware documents of the calls
that `storage.S` makes; then the file that is asked for is read as a whole, packet by
packet. -/

namespace Gandr.Pxe

open Bios.Cdrom (Memory le read16 read32)
open Bios.Bytes
open Stage1 (Machine)

variable {σ : Type}

/-- Nothing has changed but the memory of the firmware and the places in `changed`. -/
def Spares (own changed : ℕ → Prop) (before after : Memory) : Prop :=
  ∀ x, ¬ own x → ¬ changed x → after x = before x

/-- The `n` bytes from `a` on. -/
def Within (a n : ℕ) : ℕ → Prop := fun x => a ≤ x ∧ x < a + n

/-- The packet of the given number, from 0 on. -/
def packet (f : List UInt8) (k : ℕ) : List UInt8 := (f.drop (512 * k)).take 512

/-- A firmware whose server has the files of `volume`. `own` is the memory it keeps to
itself; `session` is the open file and the number of packets that have come of it. -/
structure Serves (I : Image) (api : Api σ) (entry : ℕ) (own : ℕ → Prop)
    (volume : CString → Option (List UInt8)) (session : σ → Option (List UInt8 × ℕ)) : Prop where
  own_high : ∀ x, own x → 0x3000 ≤ x
  fsize : ∀ m f, volume (name I m.mem) = some f → f.length < 2^32 →
    (api entry 0x25 I.tftpOpen m).1 = 0 ∧
      read16 (api entry 0x25 I.tftpOpen m).2.mem I.tftpOpen = 0 ∧
      read32 (api entry 0x25 I.tftpOpen m).2.mem I.port = f.length ∧
      Spares own (fun x => Within I.tftpOpen 2 x ∨ Within I.port 4 x) m.mem
        (api entry 0x25 I.tftpOpen m).2.mem
  missing : ∀ m, volume (name I m.mem) = none →
    (api entry 0x25 I.tftpOpen m).1 ≠ 0 ∧
      read16 (api entry 0x25 I.tftpOpen m).2.mem I.tftpOpen = 0x3B ∧
      Spares own (fun x => Within I.tftpOpen 2 x ∨ Within I.port 4 x) m.mem
        (api entry 0x25 I.tftpOpen m).2.mem
  opens : ∀ m f, volume (name I m.mem) = some f → read16 m.mem I.packetSize = 512 →
    (api entry 0x20 I.tftpOpen m).1 = 0 ∧
      read16 (api entry 0x20 I.tftpOpen m).2.mem I.tftpOpen = 0 ∧
      session (api entry 0x20 I.tftpOpen m).2.firmware = some (f, 0) ∧
      Spares own (fun x => Within I.tftpOpen 2 x ∨ Within I.port 4 x) m.mem
        (api entry 0x20 I.tftpOpen m).2.mem
  reads : ∀ m f k dest, session m.firmware = some (f, k) →
    read16 m.mem (I.tftpRead + 8) * 2^4 + read16 m.mem (I.tftpRead + 6) = dest → 0x3000 ≤ dest →
    (api entry 0x22 I.tftpRead m).1 = 0 ∧
      read16 (api entry 0x22 I.tftpRead m).2.mem I.tftpRead = 0 ∧
      read16 (api entry 0x22 I.tftpRead m).2.mem (I.tftpRead + 4) = (packet f k).length ∧
      session (api entry 0x22 I.tftpRead m).2.firmware = some (f, k + 1) ∧
      (∀ i (hi : i < (packet f k).length),
        (api entry 0x22 I.tftpRead m).2.mem (dest + i) = (packet f k)[i]) ∧
      Spares own (fun x => Within I.tftpRead 6 x ∨ Within dest (packet f k).length x) m.mem
        (api entry 0x22 I.tftpRead m).2.mem
  closes : ∀ m f k, session m.firmware = some (f, k) →
    (api entry 0x21 I.tftpOpen m).1 = 0 ∧
      read16 (api entry 0x21 I.tftpOpen m).2.mem I.tftpOpen = 0 ∧
      Spares own (Within I.tftpOpen 2) m.mem (api entry 0x21 I.tftpOpen m).2.mem

namespace Spares

variable {own changed changed' : ℕ → Prop} {a b c : Memory}

theorem mono (h : Spares own changed a b) (hle : ∀ x, changed x → changed' x) :
    Spares own changed' a b :=
  fun x hown hx => h x hown fun hc => hx (hle x hc)

theorem trans (h₁ : Spares own changed a b) (h₂ : Spares own changed b c) :
    Spares own changed a c :=
  fun x hown hx => (h₂ x hown hx).trans (h₁ x hown hx)

end Spares

section Read

variable {I : Image} {api : Api σ} {entry : ℕ} {own : ℕ → Prop}
  {volume : CString → Option (List UInt8)} {session : σ → Option (List UInt8 × ℕ)}
  {f : List UInt8} {dest k : ℕ} {m m₀ : Machine σ}

/-- A call that succeeds. -/
theorem request_eq {opcode params : ℕ} (hentry : read32 m.mem I.apiAddr = entry)
    (hax : (api entry opcode params m).1 = 0)
    (hstatus : read16 (api entry opcode params m).2.mem params = 0) :
    request I api opcode params m = (0, (api entry opcode params m).2) := by
  rw [request, pxeApi, hentry, hax, if_neg (by simp), hstatus]
  rfl

theorem length_packet (f : List UInt8) (k : ℕ) :
    (packet f k).length = min 512 (f.length - 512 * k) := by
  rw [packet, List.length_take, List.length_drop]

theorem getElem_packet {i : ℕ} (hi : i < (packet f k).length) :
    ∃ h : 512 * k + i < f.length, (packet f k)[i] = f[512 * k + i] := by
  rw [length_packet] at hi
  refine ⟨by omega, ?_⟩
  simp [packet]

/-- The first `k` packets of `f` are at `dest`, and nothing has changed that is not
the firmware's but the parameters and the place of the file. -/
structure Progress (I : Image) (entry : ℕ) (own : ℕ → Prop) (session : σ → Option (List UInt8 × ℕ))
    (f : List UInt8) (dest : ℕ) (m₀ : Machine σ) (k : ℕ) (m : Machine σ) : Prop where
  entry : read32 m.mem I.apiAddr = entry
  session : session m.firmware = some (f, k)
  packets : ∀ i (hi : i < f.length), i < 512 * k → m.mem (dest + i) = f[i]
  spares : Spares own (fun x => Within I.tftpRead 10 x ∨ Within dest f.length x) m₀.mem m.mem

/-- A round of the loop reads the next packet. -/
theorem Progress.next (hs : Serves I api entry own volume session)
    (hp : Progress I entry own session f dest m₀ k m) (hlow : 0x3000 ≤ dest)
    (hroom : dest + f.length ≤ 2^20) (hfree : ∀ x, Within dest f.length x → ¬ own x)
    (hk : 512 * k ≤ f.length) (hend : dest + 512 * k < 2^20) :
    ∃ m', request I api 0x22 I.tftpRead { m with mem := readParams I (dest + 512 * k) m.mem } =
        (0, m') ∧ read16 m'.mem (I.tftpRead + 4) = (packet f k).length ∧
      Progress I entry own session f dest m₀ (k + 1) m' := by
  obtain ⟨M, hM⟩ : ∃ M, M = readParams I (dest + 512 * k) m.mem := ⟨_, rfl⟩
  have hbss := I.bss_le
  have hentry : read32 M I.apiAddr = entry := by
    rw [← hp.entry, hM]
    refine read32_congr fun i hi => readParams_outside I m.mem (.inl ?_)
    simp only [Image.apiAddr, Image.tftpRead]
    omega
  obtain ⟨hax, hstatus, hsize, hsession, hpacket, hspares⟩ := hs.reads { m with mem := M } f k
    (dest + 512 * k) hp.session (by rw [hM]; exact readParams_buffer I m.mem hend) (by omega)
  have hrequest := request_eq (m := { m with mem := M }) hentry hax hstatus
  obtain ⟨m', hm'⟩ : ∃ m', m' = (api entry 0x22 I.tftpRead { m with mem := M }).2 := ⟨_, rfl⟩
  rw [← hm'] at hsize hsession hpacket hspares hrequest
  have hlen := length_packet f k
  -- what is below the packet, and its parameters, is as it was
  have hkeep : ∀ x, ¬ own x → ¬ Within I.tftpRead 10 x →
      ¬ Within (dest + 512 * k) (packet f k).length x → m'.mem x = m.mem x := by
    intro x hown hparams hx
    rw [hspares x hown (by simp only [Within] at hparams hx ⊢; omega)]
    change M x = _
    rw [hM, readParams_outside I m.mem (by simp only [Within] at hparams; omega)]
  refine ⟨m', by rw [← hM, hrequest], hsize, ⟨?_, hsession, ?_, ?_⟩⟩
  · rw [← hp.entry]
    refine read32_congr fun i hi => hkeep _ ?_ ?_ ?_
    · intro hown
      have := hs.own_high _ hown
      simp only [Image.apiAddr] at this
      omega
    · simp only [Within, Image.apiAddr, Image.tftpRead]
      omega
    · simp only [Within, Image.apiAddr]
      omega
  · intro i hi hik
    by_cases hold : i < 512 * k
    · rw [hkeep _ (hfree _ ⟨by omega, by omega⟩) ?_ (by simp only [Within]; omega),
        hp.packets i hi hold]
      simp only [Within, Image.tftpRead]
      omega
    · have hj : i - 512 * k < (packet f k).length := by omega
      obtain ⟨hlt, heq⟩ := getElem_packet hj
      have hbyte := hpacket (i - 512 * k) hj
      rw [heq, show dest + 512 * k + (i - 512 * k) = dest + i by omega] at hbyte
      rw [hbyte]
      congr 1
      omega
  · intro x hown hx
    rw [hkeep x hown (fun h => hx (.inl h)) (fun h => hx (.inr ?_)), hp.spares x hown hx]
    simp only [Within] at h ⊢
    omega

/-- The loop asks for packets until it has the last one that is not empty. -/
theorem readLoop_serves (hs : Serves I api entry own volume session)
    (hp : Progress I entry own session f dest m₀ k m) (hlow : 0x3000 ≤ dest) (hdest : dest < 2^20)
    (hroom : dest + f.length ≤ 2^20) (hfree : ∀ x, Within dest f.length x → ¬ own x)
    (hk : k = 0 ∨ 512 * k < f.length) :
    ∃ m', readLoop I api (f.length - 512 * k) (dest + 512 * k) m = .ok m' ∧
      Progress I entry own session f dest m₀ (max 1 ((f.length + 511) / 512)) m' := by
  -- by the bytes that are to come
  induction hn : f.length - 512 * k using Nat.strong_induction_on generalizing k m with
  | _ n ih =>
    obtain ⟨m', hrequest, hsize, hnext⟩ := hp.next hs hlow hroom hfree (by omega) (by omega)
    have hlen := length_packet f k
    rw [readLoop, hrequest]
    by_cases hshort : (packet f k).length < 512
    · refine ⟨m', ?_, ?_⟩
      · rw [if_neg (by simp), dif_pos (by rw [hsize]; exact hshort)]
      · rwa [show max 1 ((f.length + 511) / 512) = k + 1 by omega]
    · by_cases hend : n ≤ (packet f k).length
      · refine ⟨m', ?_, ?_⟩
        · rw [if_neg (by simp), dif_neg (by rw [hsize]; exact hshort),
            dif_pos (by rw [hsize]; exact hend)]
        · rwa [show max 1 ((f.length + 511) / 512) = k + 1 by omega]
      · obtain ⟨m'', hrest, hdone⟩ := ih (n - 512) (by omega) hnext (.inr (by omega)) (by omega)
        refine ⟨m'', ?_, hdone⟩
        rw [if_neg (by simp), dif_neg (by rw [hsize]; exact hshort),
          dif_neg (by rw [hsize]; exact hend), hsize, show (packet f k).length = 512 by omega,
          Word.add_of_lt (by omega), Nat.add_assoc, ← Nat.mul_succ, hrest]

end Read

section Open

variable {I : Image} {api : Api σ} {entry : ℕ} {own : ℕ → Prop}
  {volume : CString → Option (List UInt8)} {session : σ → Option (List UInt8 × ℕ)}
  {f : List UInt8} {s : CString} {esi : ℕ} {m : Machine σ}

/-- The places of `pxe_tftp_open`, `pxe_tftp_read` and `file_size`. -/
def Variable (I : Image) : ℕ → Prop := Within I.tftpOpen 156

/-- The name of a file in `pxe_tftp_open`. -/
def Naming (I : Image) (s : CString) (mem : Memory) : Prop :=
  ∀ i ≤ (bootName s).length, mem (I.filename + i) = ((bootName s)[i]?).getD 0

theorem Naming.name_eq (hzero : (0 : UInt8) ∉ s) (hfits : s.length + 5 < 128) {mem : Memory}
    (h : Naming I s mem) : name I mem = bootName s := by
  refine cString_of_getD (zero_notMem_bootName hzero) ?_ h
  rw [length_bootName]
  omega

/-- A call with `pxe_tftp_open` leaves the name and the entry point. -/
theorem Naming.after (hs : Serves I api entry own volume session) (hfits : s.length + 5 < 128)
    {a b : Memory} (h : Naming I s a)
    (hkeep : Spares own (fun x => Within I.tftpOpen 2 x ∨ Within I.port 4 x) a b) :
    Naming I s b := by
  intro i hi
  rw [length_bootName] at hi
  have hbss := I.bss_le
  have hfile : I.filename = I.bss + 15 := rfl
  have hopen : I.tftpOpen = I.bss + 5 := rfl
  have hport : I.port = I.bss + 143 := rfl
  rw [hkeep _ ?_ ?_, h i (by rw [length_bootName]; exact hi)]
  · intro hown
    have := hs.own_high _ hown
    omega
  · simp only [Within]
    omega

theorem entry_after (hs : Serves I api entry own volume session) {a b : Memory}
    (hentry : read32 a I.apiAddr = entry) (hkeep : Spares own (Variable I) a b) :
    read32 b I.apiAddr = entry := by
  rw [← hentry]
  have hbss := I.bss_le
  have hopen : I.tftpOpen = I.bss + 5 := rfl
  have hapi : I.apiAddr = I.bss := rfl
  refine read32_congr fun i hi => hkeep _ ?_ ?_
  · intro hown
    have := hs.own_high _ hown
    omega
  · simp only [Variable, Within]
    omega

/-- The parameters of the first call. -/
theorem params_eq (hc : Copied I esi s m.mem) :
    Naming I s (fsizeParams I (copyName I esi m.mem)) ∧
      Spares own (Variable I) m.mem (fsizeParams I (copyName I esi m.mem)) := by
  have hfile : I.filename = I.bss + 15 := rfl
  have hopen : I.tftpOpen = I.bss + 5 := rfl
  have hport : I.port = I.bss + 143 := rfl
  have hfits := hc.fits
  have hlen := length_bootName s
  rw [copyName_eq hc]
  refine ⟨?_, ?_⟩
  · intro i hi
    rw [fsizeParams_outside I _ (by omega), Bios.Cdrom.store_apply]
    by_cases hlt : i < (bootName s).length
    · rw [List.getElem?_append_left hlt, List.getElem?_eq_getElem hlt, Option.getD_some,
        Option.getD_some]
    · have hi' : i = (bootName s).length := by omega
      rw [hi', List.getElem?_append_right le_rfl, List.getElem?_eq_none (l := bootName s) le_rfl,
        Nat.sub_self, Option.getD_none]
      rfl
  · intro x _ hx
    simp only [Variable, Within] at hx
    rw [fsizeParams_outside I _ (by omega), Bios.Cdrom.store_outside]
    rw [List.length_append, hlen, List.length_singleton]
    omega

/-- A file that the server does not have is not found. -/
theorem fileOpen_missing (hs : Serves I api entry own volume session)
    (hentry : read32 m.mem I.apiAddr = entry) (hc : Copied I esi s m.mem)
    (hv : volume (bootName s) = none) :
    ∃ m', fileOpen I api esi m = .ok (0xFFFFFFFF, m') ∧
      Spares own (Variable I) m.mem m'.mem := by
  obtain ⟨M, hM⟩ : ∃ M, M = fsizeParams I (copyName I esi m.mem) := ⟨_, rfl⟩
  obtain ⟨hnaming, hspares⟩ := @params_eq σ I own s esi m hc
  rw [← hM] at hnaming hspares
  obtain ⟨hax, hstatus, hkeep⟩ := hs.missing { m with mem := M }
    (by rw [hnaming.name_eq hc.zero hc.fits, hv])
  have hentry' : read32 M I.apiAddr = entry := entry_after hs hentry hspares
  refine ⟨(api entry 0x25 I.tftpOpen { m with mem := M }).2, ?_, ?_⟩
  · rw [fileOpen, ← hM, request, pxeApi, hentry', if_pos hax, if_pos hax, openError, if_pos hstatus]
  · refine hspares.trans (hkeep.mono fun x hx => ?_)
    have hport : I.port = I.tftpOpen + 138 := rfl
    simp only [Within, Variable] at hx ⊢
    omega

/-- A file that the server has is opened, and its size is known. -/
theorem fileOpen_found (hs : Serves I api entry own volume session)
    (hentry : read32 m.mem I.apiAddr = entry) (hc : Copied I esi s m.mem)
    (hv : volume (bootName s) = some f) (hsize : f.length < 2^32) :
    ∃ m', fileOpen I api esi m = .ok (0, m') ∧ session m'.firmware = some (f, 0) ∧
      read32 m'.mem I.fileSize = f.length ∧ Spares own (Variable I) m.mem m'.mem := by
  have hopen : I.tftpOpen = I.bss + 5 := rfl
  have hport : I.port = I.bss + 143 := rfl
  have hfileSize : I.fileSize = I.bss + 157 := rfl
  have hwide : ∀ x, (Within I.tftpOpen 2 x ∨ Within I.port 4 x) → Variable I x := by
    intro x hx
    simp only [Within, Variable] at hx ⊢
    omega
  obtain ⟨M, hM⟩ : ∃ M, M = fsizeParams I (copyName I esi m.mem) := ⟨_, rfl⟩
  obtain ⟨hnaming, hspares⟩ := @params_eq σ I own s esi m hc
  rw [← hM] at hnaming hspares
  obtain ⟨hax, hstatus, hlen, hkeep⟩ := hs.fsize { m with mem := M } f
    (by rw [hnaming.name_eq hc.zero hc.fits, hv]) hsize
  have hfirst := request_eq (m := { m with mem := M }) (entry_after hs hentry hspares) hax hstatus
  obtain ⟨m₁, hm₁⟩ : ∃ m₁, m₁ = (api entry 0x25 I.tftpOpen { m with mem := M }).2 := ⟨_, rfl⟩
  rw [← hm₁] at hlen hkeep hfirst
  -- the second call, with the size that the first one gave kept in `file_size`
  obtain ⟨N, hN⟩ : ∃ N, N = openParams I m₁.mem := ⟨_, rfl⟩
  have hparams : ∀ x, ¬ Within I.port 4 x → ¬ Within I.fileSize 4 x → N x = m₁.mem x := by
    intro x h₁ h₂
    simp only [Within] at h₁ h₂
    rw [hN, openParams_outside I _ (by omega)]
  have hspares₁ : Spares own (Variable I) m.mem N := by
    refine (hspares.trans (hkeep.mono hwide)).trans fun x _ hx => hparams x ?_ ?_
    all_goals
      simp only [Within, Variable] at hx ⊢
      omega
  have hnaming₁ : Naming I s N := by
    intro i hi
    have hfile : I.filename = I.bss + 15 := rfl
    have hi' := hi
    rw [length_bootName] at hi'
    have hfits := hc.fits
    rw [hparams _ (by simp only [Within]; omega) (by simp only [Within]; omega)]
    exact hnaming.after hs hc.fits hkeep i hi
  obtain ⟨hax₁, hstatus₁, hsession, hkeep₁⟩ := hs.opens { m₁ with mem := N } f
    (by rw [hnaming₁.name_eq hc.zero hc.fits, hv]) (by rw [hN]; exact openParams_packetSize I _)
  have hsecond := request_eq (m := { m₁ with mem := N }) (entry_after hs hentry hspares₁) hax₁
    hstatus₁
  obtain ⟨m₂, hm₂⟩ : ∃ m₂, m₂ = (api entry 0x20 I.tftpOpen { m₁ with mem := N }).2 := ⟨_, rfl⟩
  rw [← hm₂] at hsession hkeep₁ hsecond
  refine ⟨m₂, ?_, hsession, ?_, hspares₁.trans (hkeep₁.mono hwide)⟩
  · rw [fileOpen, ← hM, hfirst, if_neg (by simp), ← hN, hsecond, if_neg (by simp)]
  · have hsame : read32 m₂.mem I.fileSize = read32 N I.fileSize := by
      refine read32_congr fun i hi => hkeep₁ _ ?_ ?_
      · intro hown
        have := hs.own_high _ hown
        have := I.bss_le
        omega
      · simp only [Within]
        omega
    rw [hsame, hN, openParams_fileSize, hlen]

/-- The file that is open is read to its end, where there is room for it below 1 MiB. -/
theorem fileRead_serves (hs : Serves I api entry own volume session)
    (hentry : read32 m.mem I.apiAddr = entry) (hsession : session m.firmware = some (f, 0))
    (hsize : read32 m.mem I.fileSize = f.length) (dest : ℕ) (hlow : 0x3000 ≤ dest)
    (hdest : dest < 2^20) (hroom : dest + f.length ≤ 2^20)
    (hfree : ∀ x, Within dest f.length x → ¬ own x) :
    ∃ m', fileRead I api dest m = .ok m' ∧
      session m'.firmware = some (f, max 1 ((f.length + 511) / 512)) ∧
      (∀ i (hi : i < f.length), m'.mem (dest + i) = f[i]) ∧
      Spares own (fun x => Within I.tftpRead 10 x ∨ Within dest f.length x) m.mem m'.mem := by
  have hstart : Progress I entry own session f dest m 0 m :=
    ⟨hentry, hsession, fun i _ hi => absurd hi (Nat.not_lt_zero i), fun _ _ _ => rfl⟩
  obtain ⟨m', hread, hdone⟩ := readLoop_serves hs hstart hlow hdest hroom hfree (.inl rfl)
  rw [Nat.mul_zero, Nat.add_zero, Nat.sub_zero] at hread
  refine ⟨m', ?_, hdone.session, ?_, hdone.spares⟩
  · rw [fileRead, hsize, hread]
  · intro i hi
    exact hdone.packets i hi (by omega)

theorem fileClose_serves (hs : Serves I api entry own volume session)
    (hentry : read32 m.mem I.apiAddr = entry) {k : ℕ}
    (hsession : session m.firmware = some (f, k)) :
    ∃ m', fileClose I api m = .ok m' ∧ Spares own (Variable I) m.mem m'.mem := by
  obtain ⟨M, hM⟩ : ∃ M, M = m.mem.store I.tftpOpen (le 2 0) := ⟨_, rfl⟩
  have hspares : Spares own (Variable I) m.mem M := by
    intro x _ hx
    simp only [Variable, Within] at hx
    rw [hM]
    refine Bios.Cdrom.store_outside _ ?_
    rw [Bios.Cdrom.length_le]
    omega
  obtain ⟨hax, hstatus, hkeep⟩ := hs.closes { m with mem := M } f k hsession
  refine ⟨(api entry 0x21 I.tftpOpen { m with mem := M }).2, ?_, ?_⟩
  · rw [fileClose, ← hM, request_eq (entry_after hs hentry hspares) hax hstatus, if_neg (by simp)]
  · refine hspares.trans (hkeep.mono fun x hx => ?_)
    simp only [Within, Variable] at hx ⊢
    omega

end Open

section Server

/-- A firmware with the files of `volume`, which needs no memory. -/
def server (I : Image) (volume : CString → Option (List UInt8)) : Api (Option (List UInt8 × ℕ)) :=
  fun _ opcode params m =>
    match opcode, volume (name I m.mem), m.firmware with
    | 0x25, some f, _ => (0, { m with
        mem := (m.mem.store params (le 2 0)).store (params + 138) (le 4 f.length) })
    | 0x25, none, _ => (1, { m with mem := m.mem.store params (le 2 0x3B) })
    | 0x20, some f, _ => (0, ⟨some (f, 0), m.mem.store params (le 2 0)⟩)
    | 0x20, none, _ => (1, { m with mem := m.mem.store params (le 2 0x3B) })
    | 0x22, _, some (f, k) => (0, ⟨some (f, k + 1),
        (m.mem.store (read16 m.mem (params + 8) * 2^4 + read16 m.mem (params + 6)) (packet f k)).store
          params (le 2 0 ++ (le 2 (k + 1) ++ le 2 (packet f k).length))⟩)
    | 0x21, _, _ => (0, ⟨none, m.mem.store params (le 2 0)⟩)
    | _, _, _ => (0, m)

variable {I : Image} {volume : CString → Option (List UInt8)}

theorem read16_store (mem : Memory) (a : ℕ) {v : ℕ} (hv : v < 2^16) (ys : List UInt8) :
    read16 (mem.store a (le 2 v ++ ys)) a = v :=
  @read16_append mem a 0 [] ys v rfl hv

theorem read32_store (mem : Memory) (a : ℕ) {v : ℕ} (hv : v < 2^32) (ys : List UInt8) :
    read32 (mem.store a (le 4 v ++ ys)) a = v :=
  @read32_append mem a 0 [] ys v rfl hv

theorem spares_store {changed : ℕ → Prop} (mem : Memory) {a n : ℕ} {vs : List UInt8}
    (hlen : vs.length = n) (hin : ∀ x, Within a n x → changed x) :
    Spares (fun _ => False) changed mem (mem.store a vs) := by
  intro x _ hx
  refine Bios.Cdrom.store_outside mem ?_
  by_contra hout
  exact hx (hin x ⟨by omega, by omega⟩)

theorem serves_server (entry : ℕ) : Serves I (server I volume) entry (fun _ => False) volume id where
  own_high := fun x h => h.elim
  fsize := by
    intro m f hv hf
    have hport : I.tftpOpen + 138 = I.port := rfl
    have hreply : server I volume entry 0x25 I.tftpOpen m = (0, { m with
        mem := (m.mem.store I.tftpOpen (le 2 0)).store I.port (le 4 f.length) }) := by
      simp only [server, hv, hport]
    rw [hreply]
    refine ⟨rfl, ?_, ?_, ?_⟩
    · have hfirst := read16_store m.mem I.tftpOpen (show 0 < 2^16 by decide) []
      rw [List.append_nil] at hfirst
      refine (read16_congr fun i _ => Bios.Cdrom.store_outside _ (.inl ?_)).trans hfirst
      rw [← hport]
      omega
    · have hlast := read32_store (m.mem.store I.tftpOpen (le 2 0)) I.port hf []
      rwa [List.append_nil] at hlast
    · exact (spares_store m.mem (Bios.Cdrom.length_le 2 _) fun x hx => .inl hx).trans
        (spares_store _ (Bios.Cdrom.length_le 4 _) fun x hx => .inr hx)
  missing := by
    intro m hv
    have hreply : server I volume entry 0x25 I.tftpOpen m =
        (1, { m with mem := m.mem.store I.tftpOpen (le 2 0x3B) }) := by
      simp only [server, hv]
    rw [hreply]
    refine ⟨show (1 : UInt16) ≠ 0 by decide, ?_, spares_store m.mem (Bios.Cdrom.length_le 2 _) fun x hx => .inl hx⟩
    have hstatus := read16_store m.mem I.tftpOpen (show 0x3B < 2^16 by decide) []
    rwa [List.append_nil] at hstatus
  opens := by
    intro m f hv _
    have hreply : server I volume entry 0x20 I.tftpOpen m =
        (0, ⟨some (f, 0), m.mem.store I.tftpOpen (le 2 0)⟩) := by
      simp only [server, hv]
    rw [hreply]
    refine ⟨rfl, ?_, rfl, spares_store m.mem (Bios.Cdrom.length_le 2 _) fun x hx => .inl hx⟩
    have hstatus := read16_store m.mem I.tftpOpen (show 0 < 2^16 by decide) []
    rwa [List.append_nil] at hstatus
  reads := by
    intro m f k dest hsession hdest hlow
    obtain ⟨M, hM⟩ : ∃ M, M = m.mem.store dest (packet f k) := ⟨_, rfl⟩
    have hreply : server I volume entry 0x22 I.tftpRead m = (0, ⟨some (f, k + 1),
        M.store I.tftpRead (le 2 0 ++ (le 2 (k + 1) ++ le 2 (packet f k).length))⟩) := by
      rw [hM, ← hdest]
      simp only [id] at hsession
      simp only [server, hsession]
    have hbss := I.bss_le
    have htftp : I.tftpRead = I.bss + 147 := rfl
    have hlen := length_packet f k
    rw [hreply]
    refine ⟨rfl, read16_store M I.tftpRead (by decide) _, ?_, rfl, ?_, ?_⟩
    · have hsize := @read16_append M I.tftpRead 4 (le 2 0 ++ le 2 (k + 1)) [] (packet f k).length
        (by rw [List.length_append, Bios.Cdrom.length_le, Bios.Cdrom.length_le]) (by omega)
      rwa [List.append_nil, List.append_assoc] at hsize
    · intro i hi
      change M.store I.tftpRead _ (dest + i) = _
      rw [Bios.Cdrom.store_outside, hM, Bios.Cdrom.store_apply, List.getElem?_eq_getElem hi,
        Option.getD_some]
      simp only [List.length_append, Bios.Cdrom.length_le]
      omega
    · have hpacket : Spares (fun _ => False)
          (fun x => Within I.tftpRead 6 x ∨ Within dest (packet f k).length x) m.mem M := by
        rw [hM]
        exact spares_store m.mem rfl fun x hx => .inr hx
      refine hpacket.trans (spares_store M ?_ fun x hx => .inl hx)
      simp only [List.length_append, Bios.Cdrom.length_le]
  closes := by
    intro m f k _
    refine ⟨rfl, ?_, spares_store m.mem (Bios.Cdrom.length_le 2 _) fun x hx => hx⟩
    have hstatus := read16_store m.mem I.tftpOpen (show 0 < 2^16 by decide) []
    rw [List.append_nil] at hstatus
    exact hstatus

end Server

end Gandr.Pxe

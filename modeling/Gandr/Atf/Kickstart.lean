import Gandr.Lib.Program
import Mathlib.Tactic

/-! The kickstart loader of `bal/platform/atf/kickstart`: `ks_load_dtb` and the
semihosting calls under it. The host answers every call as it likes; `fail` prints
its reason and halts. -/

namespace Gandr.Atf.Kickstart

/-- What the loader asks of the host, and what it prints. -/
inductive Request where
  /-- `SH_OPEN` -/
  | openFile (filename : String)
  /-- `SH_FLEN` -/
  | flen (fd : Int32)
  /-- `SH_READ` -/
  | read (fd : Int32) (buf : UInt64) (len : UInt32)
  /-- `SH_CLOSE` -/
  | close (fd : Int32)
  | print (text : String)

abbrev Reply : Request → Type
  | .print _ => Unit
  | .openFile _ => Int32
  | .flen _ => Int32
  | .read _ _ _ => Int32
  | .close _ => Int32

abbrev Loader := Program Reply

abbrev Host := Environment Reply

def print (text : String) : Loader Unit := .ask (.print text) .done

def ioOpen (filename : String) : Loader Int32 := .ask (.openFile filename) .done

def ioLen (fd : Int32) : Loader UInt32 := .ask (.flen fd) fun (len : Int32) => .done len.toUInt32

/-- `io_read`: `SH_READ` returns the number of bytes that are missing. -/
def ioRead (fd : Int32) (buf : UInt64) (len : UInt32) : Loader Int32 :=
  .ask (.read fd buf len) fun (res : Int32) =>
    if res = 0 then .done len.toInt32
    else if res = len.toInt32 then .done (-1)
    else .done res

def ioClose (fd : Int32) : Loader Unit := .ask (.close fd) fun _ => .done ()

def escNormal : String := "\x1b[0m"

def escBold : String := "\x1b[1m"

/-- How the loader ends. -/
inductive Ending (α : Type) where
  | returned (a : α)
  | halted (reason : String)
  deriving DecidableEq

def fail {α : Type} (reason : String) : Loader (Ending α) := do
  print (escBold ++ reason ++ "\n" ++ escNormal ++ "Kickstart failed. Halted.\n")
  pure (.halted reason)

/-- The loop of `ks_load_dtb`, for at most `steps` rounds. -/
def loadLoop (fd : Int32) (dtbstart : UInt64) (dtbSize : UInt32) :
    ℕ → UInt32 → Loader (Ending Unit)
  | 0, _ => .stuck
  | steps + 1, i =>
    if i < dtbSize then do
      print "."
      let toRead := if i + 1024 < dtbSize then 1024 else dtbSize - i
      let rv ← ioRead fd (dtbstart + i.toUInt64) toRead
      if rv ≠ toRead.toInt32 then fail " I/O error"
      else loadLoop fd dtbstart dtbSize steps (i + 1024)
    else pure (.returned ())

/-- The address of the device tree, and `mem_mark` behind it. -/
structure Loaded where
  dtbstart : UInt64
  memMark : UInt64
  deriving DecidableEq

/-- What follows the loop. -/
def finishDtb (fd : Int32) (loaded : Loaded) : Ending Unit → Loader (Ending Loaded)
  | .halted reason => pure (.halted reason)
  | .returned () => do
    ioClose fd
    print (escBold ++ " Done\n" ++ escNormal)
    pure (.returned loaded)

def ksLoadDtb (memMark : UInt64) (steps : ℕ) : Loader (Ending Loaded) := do
  print "Loading DTB..."
  let fd ← ioOpen "platform.dtb"
  if fd = -1 then fail " platform.dtb not found"
  else do
    let dtbSize ← ioLen fd
    let ending ← loadLoop fd memMark dtbSize steps 0
    finishDtb fd ⟨memMark, memMark + dtbSize.toUInt64⟩ ending

/-- The reads among the requests, as addresses and lengths. -/
def Request.chunk : Request → Option (UInt64 × UInt32)
  | .read _ buf len => some (buf, len)
  | _ => none

/-- The chunks follow each other and make up the `n` bytes from `a` on. -/
def Tiles : UInt64 → ℕ → List (UInt64 × UInt32) → Prop
  | _, n, [] => n = 0
  | a, n, (buf, len) :: rest =>
    buf = a ∧ 0 < len.toNat ∧ len.toNat ≤ n ∧ Tiles (a + len.toUInt64) (n - len.toNat) rest

/-- The file opens, has `length` bytes, and every read of it succeeds. -/
structure Readable (host : Host) (length : UInt32) : Prop where
  openFile (h : List Request) (filename : String) : host h (.openFile filename) ≠ (-1 : Int32)
  flen (h : List Request) (fd : Int32) : Int32.toUInt32 (host h (.flen fd)) = length
  read (h : List Request) (fd : Int32) (buf : UInt64) (len : UInt32) :
    host h (.read fd buf len) = (0 : Int32)

/-- The loop ends after a round for each 1024 bytes, and its chunks are the file. -/
def LoadsFile (host : Host) (memMark : UInt64) (length : UInt32) : Prop :=
  ∃ steps loaded qs, (ksLoadDtb memMark steps).run host [] = some (.returned loaded, qs) ∧
    (qs.filterMap Request.chunk).length = (length.toNat + 1023) / 1024 ∧
    Tiles memMark length.toNat (qs.filterMap Request.chunk)

section Loop

variable {host : Host} {fd : Int32} {dtbstart : UInt64} {length i : UInt32} {steps : ℕ}
  {h : List Request}

theorem ioRead_run (hr : Readable host length) (buf : UInt64) (len : UInt32) :
    (ioRead fd buf len).run host h = some (len.toInt32, [.read fd buf len]) := by
  have hread := hr.read h fd buf len
  change Option.map _ (Program.run host _ (if _ then _ else _)) = _
  rw [if_pos hread]
  rfl

/-- The length of a chunk, and the requests of one round. -/
def chunkLength (length i : UInt32) : UInt32 := if i + 1024 < length then 1024 else length - i

def round (fd : Int32) (dtbstart : UInt64) (length i : UInt32) : List Request :=
  [.print ".", .read fd (dtbstart + i.toUInt64) (chunkLength length i)]

theorem chunks_round (qs : List Request) :
    (round fd dtbstart length i ++ qs).filterMap Request.chunk =
      (dtbstart + i.toUInt64, chunkLength length i) :: qs.filterMap Request.chunk := rfl

theorem loadLoop_end (hi : ¬ i < length) :
    (loadLoop fd dtbstart length (steps + 1) i).run host h = some (.returned (), []) := by
  rw [loadLoop, if_neg hi]
  rfl

theorem loadLoop_round (hr : Readable host length) (hi : i < length) :
    (loadLoop fd dtbstart length (steps + 1) i).run host h =
      ((loadLoop fd dtbstart length steps (i + 1024)).run host
        (h ++ round fd dtbstart length i)).map
          fun r => (r.1, round fd dtbstart length i ++ r.2) := by
  rw [loadLoop, if_pos hi]
  change Option.map _ (Program.run host _ ((ioRead fd _ (chunkLength length i)) >>= _)) = _
  rw [Program.run_bind, ioRead_run hr, Option.bind_some]
  have hsame : ¬ (chunkLength length i).toInt32 ≠
      (if i + 1024 < length then 1024 else length - i : UInt32).toInt32 := not_not.mpr rfl
  dsimp only
  rw [if_neg hsame, Option.map_map]
  simp only [round, List.append_assoc, List.cons_append, List.nil_append]
  rfl

theorem offset_next (hnext : (i + 1024).toNat = i.toNat + 1024) :
    (i + 1024).toUInt64 = i.toUInt64 + (1024 : UInt32).toUInt64 := by
  apply UInt64.toNat_inj.mp
  have := i.toNat_lt
  rw [UInt32.toNat_toUInt64, hnext, UInt64.toNat_add, UInt32.toNat_toUInt64]
  simp only [UInt32.toNat_toUInt64, UInt32.reduceToNat]
  omega

/-- Below the last 1024 numbers nothing wraps: the rounds left tile what is left
of the file. The induction is on the bytes left. -/
theorem loadLoop_tiles (fd : Int32) (dtbstart : UInt64) (hr : Readable host length)
    (hlen : length.toNat ≤ 2^32 - 1024) (hi : i.toNat % 1024 = 0) (hle : i.toNat ≤ length.toNat)
    (hsteps : (length.toNat - i.toNat + 1023) / 1024 < steps) :
    ∃ qs, (loadLoop fd dtbstart length steps i).run host h = some (.returned (), qs) ∧
      (qs.filterMap Request.chunk).length = (length.toNat - i.toNat + 1023) / 1024 ∧
      Tiles (dtbstart + i.toUInt64) (length.toNat - i.toNat) (qs.filterMap Request.chunk) := by
  induction steps generalizing i h with
  | zero => omega
  | succ steps ih =>
    by_cases hlt : i < length
    · have hnat := UInt32.lt_iff_toNat_lt.mp hlt
      have hnext : (i + 1024).toNat = i.toNat + 1024 := by
        rw [UInt32.toNat_add]
        simp only [UInt32.reduceToNat]
        omega
      rw [loadLoop_round hr hlt]
      by_cases hmore : i + 1024 < length
      · have hmore' := UInt32.lt_iff_toNat_lt.mp hmore
        have hchunk : chunkLength length i = 1024 := if_pos hmore
        obtain ⟨qs, hrun, hcount, htiles⟩ := ih (i := i + 1024)
          (h := h ++ round fd dtbstart length i) (by omega) (by omega) (by omega)
        rw [hrun]
        refine ⟨_, rfl, ?_, ?_⟩
        · rw [chunks_round, List.length_cons, hcount]
          omega
        · rw [chunks_round, hchunk]
          refine ⟨rfl, by decide, ?_, ?_⟩
          · change 1024 ≤ _
            omega
          · have hleft : length.toNat - i.toNat - (1024 : UInt32).toNat =
                length.toNat - (i + 1024).toNat := by
              change _ - _ - 1024 = _
              omega
            rw [UInt64.add_assoc, ← offset_next hnext, hleft]
            exact htiles
      · have hchunk : chunkLength length i = length - i := if_neg hmore
        have hless : length.toNat ≤ i.toNat + 1024 := by
          rw [UInt32.lt_iff_toNat_lt] at hmore
          omega
        have hsub : (length - i).toNat = length.toNat - i.toNat :=
          UInt32.toNat_sub_of_le _ _ (UInt32.le_iff_toNat_le.mpr hle)
        obtain ⟨steps, rfl⟩ : ∃ k, steps = k + 1 := ⟨steps - 1, by omega⟩
        rw [loadLoop_end hmore]
        refine ⟨_, rfl, ?_, ?_⟩
        · rw [chunks_round, List.length_cons]
          change 0 + 1 = _
          omega
        · rw [chunks_round, hchunk]
          refine ⟨rfl, by omega, by omega, ?_⟩
          rw [hsub]
          exact Nat.sub_self _
    · have hnat : length.toNat ≤ i.toNat := by
        rw [UInt32.lt_iff_toNat_lt] at hlt
        omega
      refine ⟨[], loadLoop_end hlt, ?_, ?_⟩
      · rw [Nat.sub_eq_zero_of_le hnat]
        rfl
      · exact Nat.sub_eq_zero_of_le hnat

/-- Among them the counter returns to zero, and the loop does not end. -/
theorem loadLoop_endless (hr : Readable host length) (hlen : 2^32 - 1024 < length.toNat)
    (hi : i.toNat % 1024 = 0) :
    (loadLoop fd dtbstart length steps i).run host h = none := by
  induction steps generalizing i h with
  | zero => rfl
  | succ steps ih =>
    have hlt : i < length := by
      rw [UInt32.lt_iff_toNat_lt]
      have := i.toNat_lt
      omega
    have hnext : (i + 1024).toNat % 1024 = 0 := by
      rw [UInt32.toNat_add]
      simp only [UInt32.reduceToNat]
      omega
    rw [loadLoop_round hr hlt, ih hnext]
    rfl

/-- The requests after the loop. -/
def closing (fd : Int32) : List Request :=
  [.close fd, .print (escBold ++ " Done\n" ++ escNormal)]

/-- With a readable file the call is its loop and what follows. -/
theorem ksLoadDtb_run (hr : Readable host length) (memMark : UInt64) (steps : ℕ) :
    ∃ fd l, l.filterMap Request.chunk = [] ∧ (ksLoadDtb memMark steps).run host [] =
      ((loadLoop fd memMark length steps 0 >>=
        finishDtb fd ⟨memMark, memMark + length.toUInt64⟩).run host l).map
          fun r => (r.1, l ++ r.2) := by
  have hopen := hr.openFile [.print "Loading DTB..."] "platform.dtb"
  have hflen := hr.flen [.print "Loading DTB...", .openFile "platform.dtb"]
    (host [.print "Loading DTB..."] (.openFile "platform.dtb"))
  generalize hfd : host [.print "Loading DTB..."] (.openFile "platform.dtb") = fd at hopen hflen
  refine ⟨fd, [.print "Loading DTB...", .openFile "platform.dtb", .flen fd], rfl, ?_⟩
  change Option.map _ (Option.map _ (Program.run host _ (if _ then _ else _))) = _
  simp only [List.nil_append, List.cons_append]
  rw [hfd, if_neg hopen, ← hflen]
  change Option.map _ (Option.map _ (Option.map _ _)) = _
  rw [Option.map_map, Option.map_map]
  rfl

/-- The whole file, in the rounds it takes. -/
theorem loadLoop_file (fd : Int32) (hr : Readable host length) (hlen : length.toNat ≤ 2^32 - 1024) :
    ∃ qs, (loadLoop fd dtbstart length ((length.toNat + 1023) / 1024 + 1) 0).run host h =
        some (.returned (), qs) ∧
      (qs.filterMap Request.chunk).length = (length.toNat + 1023) / 1024 ∧
      Tiles dtbstart length.toNat (qs.filterMap Request.chunk) := by
  have htiles := loadLoop_tiles fd dtbstart (h := h) (i := 0) hr hlen rfl (Nat.zero_le _)
    (Nat.lt_succ_self _)
  simpa using htiles

end Loop

/-- For every length the host may report: the device tree is loaded as it should
if and only if the length is at most 2^32 - 1024. -/
theorem ksLoadDtb_loads_iff (host : Host) (length : UInt32) (hr : Readable host length)
    (memMark : UInt64) : LoadsFile host memMark length ↔ length.toNat ≤ 2^32 - 1024 := by
  constructor
  · rintro ⟨steps, loaded, qs, hrun, -⟩
    by_contra hlen
    obtain ⟨fd, l, -, heq⟩ := ksLoadDtb_run hr memMark steps
    rw [heq, Program.run_bind, loadLoop_endless hr (by omega) rfl] at hrun
    cases hrun
  · intro hlen
    obtain ⟨fd, l, hl, heq⟩ := ksLoadDtb_run hr memMark ((length.toNat + 1023) / 1024 + 1)
    obtain ⟨qs, hrun, hcount, htiles⟩ := loadLoop_file fd (h := l) hr hlen
    rw [Program.run_bind, hrun] at heq
    refine ⟨_, _, l ++ (qs ++ closing fd), heq, ?_⟩
    have hchunks : (l ++ (qs ++ closing fd)).filterMap Request.chunk =
        qs.filterMap Request.chunk := by
      rw [List.filterMap_append, List.filterMap_append, hl, List.nil_append]
      exact List.append_nil _
    rw [hchunks]
    exact ⟨hcount, htiles⟩

/-- A host with a readable file of this length. -/
def fileHost (length : UInt32) : Host
  | _, .openFile _ => (3 : Int32)
  | _, .flen _ => length.toInt32
  | _, .read _ _ _ => (0 : Int32)
  | _, .close _ => (0 : Int32)
  | _, .print _ => ()

theorem fileHost_readable (length : UInt32) : Readable (fileHost length) length where
  openFile _ _ := by
    change (3 : Int32) ≠ -1
    decide
  flen _ _ := rfl
  read _ _ _ _ := rfl

theorem loads_3000_bytes : LoadsFile (fileHost 3000) 0x80000 3000 :=
  (ksLoadDtb_loads_iff (fileHost 3000) 3000 (fileHost_readable 3000) 0x80000).mpr (by decide)

/-- Where the host reports an error for the length, the loop does not end. -/
theorem error_length_endless :
    Readable (fileHost 0xFFFFFFFF) 0xFFFFFFFF ∧
      (∀ steps, (ksLoadDtb 0x80000 steps).run (fileHost 0xFFFFFFFF) [] = none) ∧
      ¬ LoadsFile (fileHost 0xFFFFFFFF) 0x80000 0xFFFFFFFF := by
  have hr := fileHost_readable 0xFFFFFFFF
  have hnone : ∀ steps, (ksLoadDtb 0x80000 steps).run (fileHost 0xFFFFFFFF) [] = none := by
    intro steps
    obtain ⟨fd, l, -, heq⟩ := ksLoadDtb_run hr 0x80000 steps
    rw [heq, Program.run_bind, loadLoop_endless hr (by decide) rfl]
    rfl
  refine ⟨hr, hnone, ?_⟩
  rintro ⟨steps, loaded, qs, hrun, -⟩
  rw [hnone] at hrun
  cases hrun

end Gandr.Atf.Kickstart

import Mathlib.Tactic

/-! Files of `bal/fs/iso9660/iso9660.c` over the library that reads the volume. The
library is a parameter: `l9660_read`, `l9660_seek` and `l9660_tell` on its own file
structure `σ`. -/

namespace Gandr.Fs.Iso9660

/-- `l9660_status` -/
inductive L9660Status where
  | ok
  | eio
  | ebadfs
  | enoent
  | enotfile
  | enotdir
  | other (code : ℕ)
  deriving DecidableEq

inductive Errno where
  | ok
  | eio
  | enoent
  | eisdir
  | enotdir
  | einval
  deriving DecidableEq

def translateStatus : L9660Status → Errno
  | .ok => .ok
  | .eio => .eio
  | .ebadfs => .eio
  | .enoent => .enoent
  | .enotfile => .eisdir
  | .enotdir => .enotdir
  | .other _ => .einval

/-- What a read leaves: `bytes` are in the buffer, and their number is stored. -/
structure ReadResult (σ ε : Type) where
  status : ε
  bytes : List UInt8
  file : σ

structure L9660 (σ : Type) where
  read : σ → ℕ → ReadResult σ L9660Status
  seek : σ → (whence : ℤ) → (offset : ℤ) → L9660Status × σ
  tell : σ → ℕ

/-- `SEEK_SET` -/
def seekSet : ℤ := 0

section Calls

variable {σ : Type} (L : L9660 σ)

def fileRead (f : σ) (nbytes : ℕ) : ReadResult σ Errno :=
  let r := L.read f nbytes
  ⟨translateStatus r.status, r.bytes, r.file⟩

/-- The offset is not used. -/
def filePread (f : σ) (nbytes : ℕ) (_offset : ℕ) : ReadResult σ Errno :=
  let oldOffset : ℕ := L.tell f % 2^32
  let r := L.read f nbytes
  let s := L.seek r.file seekSet oldOffset
  ⟨translateStatus (if r.status ≠ .ok then r.status else s.1), r.bytes, s.2⟩

/-- The error, the new offset if one is stored, and the file. -/
def fileSeek (f : σ) (offset whence : ℤ) : Errno × Option ℕ × σ :=
  if offset > 2^32 - 1 then (.einval, none, f)
  else
    let s := L.seek f whence offset
    (translateStatus s.1, some (L.tell s.2), s.2)

/-- The calls of a file's `ioctl`, apart from the one that closes it. -/
inductive Call where
  | read (nbytes : ℕ)
  | seek (offset whence : ℤ)
  | pread (nbytes offset : ℕ)

def Call.isPread : Call → Bool
  | .pread _ _ => true
  | _ => false

/-- What the calls of `file_read` return in a sequence of calls. -/
def reads : List Call → σ → List (Errno × List UInt8)
  | [], _ => []
  | .read nbytes :: rest, f =>
    let r := fileRead L f nbytes
    (r.status, r.bytes) :: reads rest r.file
  | .seek offset whence :: rest, f => reads rest (fileSeek L f offset whence).2.2
  | .pread nbytes offset :: rest, f => reads rest (filePread L f nbytes offset).file

end Calls

/-- An ordinary seekable stream over `C`: a position decides what a call does; a read
that succeeds gives bytes from there on and moves behind them; every position of the
stream can be sought. -/
structure Ordinary {σ : Type} (L : L9660 σ) (C : List UInt8) : Prop where
  tell_lt : ∀ f, L.tell f < 2^32
  read_ok : ∀ f n, (L.read f n).status = .ok → ∃ k ≤ n,
    (L.read f n).bytes = (C.drop (L.tell f)).take k ∧
      L.tell (L.read f n).file = L.tell f + (L.read f n).bytes.length
  seek_set : ∀ f g, (L.seek f seekSet (L.tell g)).1 = .ok ∧
    L.tell (L.seek f seekSet (L.tell g)).2 = L.tell g
  read_same : ∀ f g n, L.tell f = L.tell g → (L.read f n).status = (L.read g n).status ∧
    (L.read f n).bytes = (L.read g n).bytes ∧
    L.tell (L.read f n).file = L.tell (L.read g n).file
  seek_same : ∀ f g whence offset, L.tell f = L.tell g →
    (L.seek f whence offset).1 = (L.seek g whence offset).1 ∧
      L.tell (L.seek f whence offset).2 = L.tell (L.seek g whence offset).2

/-- A successful call has read at the offset, what it read is the same from every other
position, and the position is as before. -/
def Positional {σ : Type} (L : L9660 σ) (C : List UInt8) (f : σ) (nbytes offset : ℕ) : Prop :=
  (filePread L f nbytes offset).status = .ok →
    (filePread L f nbytes offset).bytes =
      (C.drop offset).take (filePread L f nbytes offset).bytes.length ∧
    (∀ g, (filePread L g nbytes offset).status = .ok →
      (filePread L g nbytes offset).bytes = (filePread L f nbytes offset).bytes) ∧
    L.tell (filePread L f nbytes offset).file = L.tell f

section Stream

variable {σ : Type} {L : L9660 σ} {C : List UInt8}

/-- The position is restored, also after a read that failed. -/
theorem Ordinary.filePread_tell (h : Ordinary L C) (f : σ) (nbytes offset : ℕ) :
    L.tell (filePread L f nbytes offset).file = L.tell f := by
  simp only [filePread, Nat.mod_eq_of_lt (h.tell_lt f)]
  exact (h.seek_set _ f).2

theorem Ordinary.fileSeek_same (h : Ordinary L C) {f g : σ} (hfg : L.tell f = L.tell g)
    (offset whence : ℤ) :
    L.tell (fileSeek L f offset whence).2.2 = L.tell (fileSeek L g offset whence).2.2 := by
  unfold fileSeek
  split_ifs
  · exact hfg
  · exact (h.seek_same f g whence offset hfg).2

/-- Streams at one position give the same reads, whether or not preads are made. -/
theorem Ordinary.reads_filter (h : Ordinary L C) (calls : List Call) {f g : σ}
    (hfg : L.tell f = L.tell g) :
    reads L calls f = reads L (calls.filter fun c => !c.isPread) g := by
  induction calls generalizing f g with
  | nil => rfl
  | cons call rest ih =>
    cases call with
    | read nbytes =>
      obtain ⟨hstatus, hbytes, htell⟩ := h.read_same f g nbytes hfg
      rw [List.filter_cons_of_pos rfl, reads, reads]
      simp only [fileRead, hstatus, hbytes, ih htell]
    | seek offset whence =>
      rw [List.filter_cons_of_pos rfl, reads, reads]
      exact ih (h.fileSeek_same hfg offset whence)
    | pread nbytes offset =>
      rw [List.filter_cons_of_neg (by simp [Call.isPread]), reads]
      exact ih ((h.filePread_tell f nbytes offset).trans hfg)

/-- A successful call has read at the current position. -/
theorem Ordinary.filePread_bytes (h : Ordinary L C) {f : σ} {nbytes offset : ℕ}
    (hok : (filePread L f nbytes offset).status = .ok) :
    ∃ k ≤ nbytes, (filePread L f nbytes offset).bytes = (C.drop (L.tell f)).take k := by
  have hread : (L.read f nbytes).status = .ok := by
    by_contra hne
    simp only [filePread, ne_eq, hne, not_false_eq_true, if_true] at hok
    cases hs : (L.read f nbytes).status <;> simp [hs, translateStatus] at hok hne
  obtain ⟨k, hk, hbytes, -⟩ := h.read_ok f nbytes hread
  exact ⟨k, hk, hbytes⟩

end Stream

/-- A stream that gives all there is, with positions up to the end. -/
def wholeStream (C : List UInt8) : L9660 ℕ where
  tell p := min p C.length
  read p n := ⟨.ok, (C.drop (min p C.length)).take n,
    min p C.length + ((C.drop (min p C.length)).take n).length⟩
  seek p whence offset :=
    (.ok, if whence = seekSet then offset.toNat
      else if whence = 1 then (↑(min p C.length) + offset).toNat
      else (↑C.length - offset).toNat)

theorem wholeStream_ordinary {C : List UInt8} (hC : C.length < 2^32) :
    Ordinary (wholeStream C) C where
  tell_lt p := (min_le_right p C.length).trans_lt hC
  read_ok p n _ := by
    refine ⟨n, le_rfl, rfl, ?_⟩
    simp only [wholeStream, List.length_take, List.length_drop]
    omega
  seek_set p q := by
    refine ⟨rfl, ?_⟩
    simp only [wholeStream, if_true, Int.toNat_natCast]
    omega
  read_same p q n h := by
    have h : min p C.length = min q C.length := h
    simp only [wholeStream, h, and_self]
  seek_same p q whence offset h := by
    have h : min p C.length = min q C.length := h
    simp only [wholeStream, h, and_self]

/-- Reads are positional only where there is nothing to read: the offset is ignored.
Calls of `file_read` do not notice them in any case. -/
theorem filePread_positional_iff (C : List UInt8) (hC : C.length < 2^32) (nbytes offset : ℕ) :
    ((∀ (σ : Type) (L : L9660 σ), Ordinary L C → ∀ f, Positional L C f nbytes offset) ↔
      nbytes = 0 ∨ C = []) ∧
    ∀ (σ : Type) (L : L9660 σ), Ordinary L C → ∀ calls f,
      reads L calls f = reads L (calls.filter fun c => !c.isPread) f := by
  refine ⟨⟨fun h => ?_, fun h σ L hL f hok => ?_⟩, fun σ L hL calls f => hL.reads_filter calls rfl⟩
  · -- at the start of the file there is something to read, at its end nothing
    obtain ⟨-, hsame, -⟩ := h ℕ (wholeStream C) (wholeStream_ordinary hC) 0 rfl
    have hend : (C.drop (min C.length C.length)).take nbytes = (C.drop (min 0 C.length)).take nbytes :=
      hsame C.length rfl
    rw [min_self, List.drop_length, List.take_nil, Nat.zero_min, List.drop_zero] at hend
    exact (List.take_eq_nil_iff.mp hend.symm)
  · have hnone : ∀ g, (filePread L g nbytes offset).status = .ok →
        (filePread L g nbytes offset).bytes = [] := by
      intro g hg
      obtain ⟨k, hk, hbytes⟩ := hL.filePread_bytes hg
      rw [hbytes]
      rcases h with rfl | rfl
      · rw [Nat.le_zero.mp hk, List.take_zero]
      · rw [List.drop_nil, List.take_nil]
    refine ⟨?_, fun g hg => ?_, hL.filePread_tell f nbytes offset⟩
    · rw [hnone f hok, List.length_nil, List.take_zero]
    · rw [hnone g hg, hnone f hok]

/-- Reads of no bytes in a file of three. -/
theorem noBytes_positional :
    Positional (wholeStream [1, 2, 3]) [1, 2, 3] 1 0 2 ∧
      reads (wholeStream [1, 2, 3]) [.read 1, .pread 2 0, .read 1] 0 =
        reads (wholeStream [1, 2, 3]) [.read 1, .read 1] 0 :=
  have h := filePread_positional_iff [1, 2, 3] (by decide) 0 2
  ⟨h.1.mpr (.inl rfl) ℕ _ (wholeStream_ordinary (by decide)) 1,
    h.2 ℕ _ (wholeStream_ordinary (by decide)) [.read 1, .pread 2 0, .read 1] 0⟩

/-- At the start of the file a read at offset 2 gives the first byte. -/
theorem wholeStream_not_positional :
    Ordinary (wholeStream [1, 2, 3]) [1, 2, 3] ∧
      ¬ Positional (wholeStream [1, 2, 3]) [1, 2, 3] 0 1 2 := by
  refine ⟨wholeStream_ordinary (by decide), fun h => ?_⟩
  obtain ⟨hfill, -⟩ := h rfl
  exact absurd hfill (by decide)

end Gandr.Fs.Iso9660

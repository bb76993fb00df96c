import Cpcf.Lib.Memory

/-!
`os::FileWriteLine`: a writer that collects what it writes in a buffer, in the build that is not for Windows.

What does not fit into the buffer any more is written to the file after what the buffer holds. `Close` closes the
file only, so what the buffer holds then never gets there.
-/

namespace Cpcf.Os.FileWriteLine

open Cpcf.Lib.Memory

def FRL_BUFSIZE : UInt32 := 64 * 1024

/-- Data whose size is a `UINT`. -/
structure Block where
  bytes : List UInt8
  length_lt : bytes.length < 2 ^ 32

def Block.size (b : Block) : UInt32 := UInt32.ofNat b.bytes.length

@[simp] theorem Block.toNat_size (b : Block) : b.size.toNat = b.bytes.length := UInt32.toNat_ofNat_of_lt' b.length_lt

structure Writer where
  /-- The memory from the start of the buffer on. -/
  buf : Mem
  bufused : UInt32
  /-- The contents of the file. It is open for appending, or was empty when it was opened. -/
  file : List UInt8
  /-- Some write has gone beyond the end of the buffer. -/
  outside : Bool

/-- `_file.Write`, which succeeds. -/
def Writer.fileWrite (w : Writer) (p : List UInt8) : Writer := { w with file := w.file ++ p }

/-- What the buffer holds. -/
def Writer.held (w : Writer) : List UInt8 := read w.buf 0 w.bufused.toNat

/-- `Open`, on a file with the content `old`. -/
def openFile (buf : Mem) (old : List UInt8) (append : Bool) : Writer :=
  ⟨buf, 0, if append then old else [], false⟩

/-- `Write`. -/
def write (w : Writer) (b : Block) : Writer × Bool :=
  if FRL_BUFSIZE < w.bufused + b.size then
    let w := if w.bufused = 0 then w else w.fileWrite w.held
    ({ w.fileWrite b.bytes with bufused := 0 }, true)
  else
    ({ w with
       buf := memcpy w.buf w.bufused.toNat b.bytes
       bufused := w.bufused + b.size
       outside := w.outside || decide (FRL_BUFSIZE.toNat < w.bufused.toNat + b.bytes.length) }, true)

/-- The end of a line. -/
def crlf : Block := ⟨[0x0d, 0x0a], by norm_num⟩

/-- `WriteLine`. -/
def writeLine (w : Writer) (line : Block) : Writer × Bool :=
  let (w, ok) := write w line
  if ok then write w crlf else (w, false)

/-- `Flush`. -/
def flush (w : Writer) : Writer × Bool :=
  if w.bufused ≠ 0 then ({ w.fileWrite w.held with bufused := 0 }, true) else (w, false)

/-- `Close`, and the destructor. It leaves the file as it is. -/
def close (w : Writer) : List UInt8 := w.file

/-! ### Calls -/

inductive Call
  | write (p : Block)
  | writeLine (line : Block)
  | flush

/-- What a call writes. -/
def Call.data : Call → List UInt8
  | .write p => p.bytes
  | .writeLine line => line.bytes ++ crlf.bytes
  | .flush => []

/-- The data of a call for which the fit test is made on a sum that may be cut. The end of a line is too short for it. -/
def Call.block : Call → Option Block
  | .write p => some p
  | .writeLine line => some line
  | .flush => none

def step (w : Writer) : Call → Writer
  | .write p => (write w p).1
  | .writeLine line => (writeLine w line).1
  | .flush => (flush w).1

/-- The writer after the calls. -/
def run (w : Writer) (cs : List Call) : Writer := cs.foldl step w

/-- In none of the calls the sum of the fit test exceeds 32 bits. -/
def SumsFit : Writer → List Call → Prop
  | _, [] => True
  | w, c :: cs => (∀ b ∈ c.block, w.bufused.toNat + b.bytes.length < 2 ^ 32) ∧ SumsFit (step w c) cs

/-! ### One write -/

section

variable {w : Writer} {b : Block}

/-- All that was written to the file and to the buffer. -/
def Writer.content (w : Writer) : List UInt8 := w.file ++ w.held

theorem content_of_bufused (h : w.bufused = 0) : w.content = w.file := by
  unfold Writer.content Writer.held
  rw [h]
  exact List.append_nil _

theorem flushed_content (w : Writer) : ((if w.bufused = 0 then w else w.fileWrite w.held) : Writer).file = w.content := by
  split
  · next h => exact (content_of_bufused h).symm
  · rfl

/-- The buffer is never fuller than it is long, as far as the writer knows. -/
theorem write_bufused_le (w : Writer) (b : Block) : (write w b).1.bufused.toNat ≤ FRL_BUFSIZE.toNat := by
  unfold write
  split
  · exact Nat.zero_le _
  · next h => exact Nat.not_lt.mp h

/-- Where the sum is not cut nothing is lost, and the buffer is kept to. -/
theorem write_spec (h : w.bufused.toNat + b.bytes.length < 2 ^ 32) :
    (write w b).1.content = w.content ++ b.bytes ∧ (write w b).1.outside = w.outside := by
  have hsum : (w.bufused + b.size).toNat = w.bufused.toNat + b.bytes.length := by
    rw [UInt32.toNat_add, b.toNat_size]
    exact Nat.mod_eq_of_lt h
  unfold write
  split
  · constructor
    · rw [content_of_bufused rfl, ← flushed_content w]
      rfl
    · dsimp only [Writer.fileWrite]
      split <;> rfl
  · next hfit =>
    rw [UInt32.lt_iff_toNat_lt, hsum] at hfit
    constructor
    · have hheld : read (memcpy w.buf w.bufused.toNat b.bytes) 0 (w.bufused + b.size).toNat = w.held ++ b.bytes := by
        have hlen : w.held.length = w.bufused.toNat := length_read _ _ _
        have hholds : Holds (memcpy w.buf w.bufused.toNat b.bytes) 0 (w.held ++ b.bytes) := by
          refine holds_append.mpr ⟨(holds_read w.buf 0 _).memcpy (by rw [length_read]; omega), ?_⟩
          rw [hlen, Nat.zero_add]
          exact holds_memcpy _ _ _
        have hread := hholds.read_eq
        rw [List.length_append, hlen] at hread
        rw [hsum]
        exact hread
      unfold Writer.content Writer.held
      dsimp only
      rw [hheld, List.append_assoc]
      rfl
    · dsimp only
      rw [decide_eq_false hfit, Bool.or_false]

/-- Where it is cut the write goes beyond the buffer. -/
theorem write_outside_of_cut (hw : w.bufused.toNat ≤ FRL_BUFSIZE.toNat) (h : ¬ w.bufused.toNat + b.bytes.length < 2 ^ 32) :
    (write w b).1.outside = true := by
  have hb := b.length_lt
  have hsize : FRL_BUFSIZE.toNat = 65536 := rfl
  have hsum : (w.bufused + b.size).toNat = w.bufused.toNat + b.bytes.length - 2 ^ 32 := by
    rw [UInt32.toNat_add, b.toNat_size]
    omega
  unfold write
  rw [if_neg (by rw [UInt32.lt_iff_toNat_lt, hsum]; omega)]
  dsimp only
  rw [decide_eq_true (by omega), Bool.or_true]

theorem write_outside_mono (h : w.outside = true) : (write w b).1.outside = true := by
  unfold write
  split
  · dsimp only [Writer.fileWrite]
    split <;> exact h
  · dsimp only
    rw [h, Bool.true_or]

theorem writeLine_eq (w : Writer) (line : Block) : writeLine w line = write (write w line).1 crlf := by
  have hok : (write w line).2 = true := by
    unfold write
    split <;> rfl
  unfold writeLine
  dsimp only
  rw [hok]
  rfl

theorem flush_spec (w : Writer) : (flush w).1.content = w.content ∧ (flush w).1.outside = w.outside := by
  unfold flush
  split
  · exact ⟨content_of_bufused rfl, rfl⟩
  · exact ⟨rfl, rfl⟩

theorem flush_bufused (w : Writer) : (flush w).1.bufused = 0 := by
  unfold flush
  split
  · rfl
  · next h => exact not_not.mp h

/-! ### Many calls -/

theorem step_bufused_le (w : Writer) (c : Call) : (step w c).bufused.toNat ≤ FRL_BUFSIZE.toNat := by
  cases c with
  | write p => exact write_bufused_le w p
  | writeLine line =>
    change (writeLine w line).1.bufused.toNat ≤ _
    rw [writeLine_eq]
    exact write_bufused_le _ _
  | flush =>
    change (flush w).1.bufused.toNat ≤ _
    rw [flush_bufused]
    exact Nat.zero_le _

/-- Where the sum of a call is not cut. -/
theorem step_spec {c : Call} (h : ∀ b ∈ c.block, w.bufused.toNat + b.bytes.length < 2 ^ 32) :
    (step w c).content = w.content ++ c.data ∧ (step w c).outside = w.outside := by
  cases c with
  | write p => exact write_spec (h p rfl)
  | writeLine line =>
    have hsize : FRL_BUFSIZE.toNat = 65536 := rfl
    have hcrlf : crlf.bytes.length = 2 := rfl
    have hle := write_bufused_le w line
    obtain ⟨h1, h2⟩ := write_spec (h line rfl)
    obtain ⟨h3, h4⟩ := write_spec (w := (write w line).1) (b := crlf) (by omega)
    change (writeLine w line).1.content = _ ∧ (writeLine w line).1.outside = _
    rw [writeLine_eq]
    exact ⟨by rw [h3, h1, List.append_assoc]; rfl, h4.trans h2⟩
  | flush =>
    obtain ⟨h1, h2⟩ := flush_spec w
    exact ⟨h1.trans (List.append_nil _).symm, h2⟩

theorem step_outside_mono {c : Call} (h : w.outside = true) : (step w c).outside = true := by
  cases c with
  | write p => exact write_outside_mono h
  | writeLine line =>
    change (writeLine w line).1.outside = true
    rw [writeLine_eq]
    exact write_outside_mono (write_outside_mono h)
  | flush => exact (flush_spec w).2.trans h

theorem step_outside_of_cut {c : Call} {b : Block} (hw : w.bufused.toNat ≤ FRL_BUFSIZE.toNat) (hb : b ∈ c.block)
    (h : ¬ w.bufused.toNat + b.bytes.length < 2 ^ 32) : (step w c).outside = true := by
  cases c with
  | write p =>
    obtain rfl := Option.some.inj hb
    exact write_outside_of_cut hw h
  | writeLine line =>
    obtain rfl := Option.some.inj hb
    change (writeLine w line).1.outside = true
    rw [writeLine_eq]
    exact write_outside_mono (write_outside_of_cut hw h)
  | flush => cases hb

variable {cs : List Call}

theorem run_outside_mono (h : w.outside = true) : (run w cs).outside = true := by
  induction cs generalizing w with
  | nil => exact h
  | cons c cs ih => exact ih (step_outside_mono h)

/-- As long as no sum is cut everything is in the file or in the buffer. -/
theorem run_spec (h : SumsFit w cs) :
    (run w cs).content = w.content ++ cs.flatMap Call.data ∧ (run w cs).outside = w.outside := by
  induction cs generalizing w with
  | nil => exact ⟨(List.append_nil _).symm, rfl⟩
  | cons c cs ih =>
    obtain ⟨h1, h2⟩ := step_spec h.1
    obtain ⟨h3, h4⟩ := ih h.2
    refine ⟨?_, h4.trans h2⟩
    rw [List.flatMap_cons, ← List.append_assoc, ← h1]
    exact h3

/-- A sum that is cut shows. -/
theorem sumsFit_of_outside (hw : w.bufused.toNat ≤ FRL_BUFSIZE.toNat) (h : (run w cs).outside = false) : SumsFit w cs := by
  induction cs generalizing w with
  | nil => trivial
  | cons c cs ih =>
    refine ⟨fun b hb => ?_, ih (step_bufused_le w c) h⟩
    by_contra hcut
    have hout : (run (step w c) cs).outside = true := run_outside_mono (step_outside_of_cut hw hb hcut)
    rw [show run (step w c) cs = run w (c :: cs) from rfl, h] at hout
    cases hout

end

/-- After the calls and `Close` the file has what it had at first and then all data, and no write went beyond the
buffer. -/
def LosesNothing (buf : Mem) (old : List UInt8) (append : Bool) (cs : List Call) : Prop :=
  let w := run (openFile buf old append) cs
  close w = (if append then old else []) ++ cs.flatMap Call.data ∧ w.outside = false

/-- **What is in the buffer at the end is lost.** The writer keeps all data, and keeps to its buffer, if and only if in no
call the sum of the fit test exceeds 32 bits and the buffer is empty when `Close` is called. -/
theorem losesNothing_iff (buf : Mem) (old : List UInt8) (append : Bool) (cs : List Call) :
    LosesNothing buf old append cs ↔
      SumsFit (openFile buf old append) cs ∧ (run (openFile buf old append) cs).bufused = 0 := by
  have hcontent : (openFile buf old append).content = if append then old else [] := content_of_bufused rfl
  constructor
  · rintro ⟨hfile, hout⟩
    have hfit := sumsFit_of_outside (w := openFile buf old append) (Nat.zero_le _) hout
    refine ⟨hfit, ?_⟩
    have h := (run_spec hfit).1
    rw [hcontent, ← hfile] at h
    have hheld : (run (openFile buf old append) cs).held = [] := List.append_right_eq_self.mp h
    have hlen := congrArg List.length hheld
    rw [Writer.held, length_read] at hlen
    exact UInt32.toNat_inj.mp hlen
  · rintro ⟨hfit, hempty⟩
    obtain ⟨h1, h2⟩ := run_spec hfit
    rw [content_of_bufused hempty, hcontent] at h1
    exact ⟨h1, h2⟩

/-- One byte that is written and is in the buffer when the file is closed. -/
def oneByte : List Call := [.write ⟨[0x61], by norm_num⟩]

theorem not_losesNothing : ¬ ∀ buf old append cs, LosesNothing buf old append cs := by
  intro h
  have hfile := (h (fun _ => 0) [] false oneByte).1
  exact absurd hfile (by decide)

end Cpcf.Os.FileWriteLine

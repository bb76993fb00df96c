import Cpcf.Lib.PartialCells
import Cpcf.Lib.Run
import Cpcf.Lib.Word

/-!
The memory streams of `rt/buffer_type.h`: `OStream`, which grows, and `OStreamFixed`, with a capacity.

`StreamT` keeps a position and the used length, `m_Used`, over a storage with its own length, `_len`. An
`OStreamFixed` writes by `OStreamT::Write`, which moves the used length up. `OStream` has a `Write` and a `Seek` of its
own: they make the storage longer, and only `SetLength` sets the used length.

The abstract stream is a seekable array of bytes, some of which nobody has written. Positions are `UINT` and offsets
`SSIZE_T`. The allocations of an `OStream` succeed, and new memory holds anything; each call of an `OStream` is given
what that is.
-/

namespace Cpcf.Rt.MemoryStream

open Cpcf.Lib.Cells Cpcf.Lib.PartialCells Cpcf.Lib.Run Cpcf.Lib.Word

/-! ### The code -/

/-- `rt::_File::Seek_Begin`, `Seek_Current` and `Seek_End`. -/
inductive Origin
  | seekBegin
  | seekCurrent
  | seekEnd
  deriving DecidableEq

/-- A call. -/
inductive Op
  | write (buf : List UInt8)
  | seek (offset : ℤ) (nFrom : Origin)
  | rewind
  | setLength (sz : ℕ)

/-- A stream: the memory behind `_p`, `_len`, `m_Pos` and `m_Used`. -/
structure Stream where
  p : ℕ → UInt8
  len : ℕ
  pos : ℕ
  used : ℕ

/-- `GetLength()`. -/
def Stream.getLength (s : Stream) : ℕ := s.used

/-- `newp` of `Seek`, where the end is at `last`. -/
def seekTarget (pos last : ℕ) (offset : ℤ) : Origin → ℤ
  | .seekBegin => offset
  | .seekCurrent => longOf (pos + offset)
  | .seekEnd => longOf (last + offset)

namespace OStream

/-- A new stream. -/
def new (p : ℕ → UInt8) : Stream := ⟨p, 0, 0, 0⟩

/-- `Buffer<BYTE>::ChangeSize(new_size)`. -/
def changeSize (s : Stream) (fresh : ℕ → UInt8) (new_size : ℕ) : Stream :=
  if new_size ≤ s.len then { s with len := new_size }
  else { s with p := fun i => if i < s.len then s.p i else fresh i, len := new_size }

/-- `Write(pBuf, co)`. -/
def write (s : Stream) (fresh : ℕ → UInt8) (buf : List UInt8) : Stream :=
  let s := changeSize s fresh (max s.len ((s.pos + buf.length) % 2 ^ 32))
  { s with p := put s.p s.pos buf, pos := (s.pos + buf.length) % 2 ^ 32 }

/-- `Seek(offset, nFrom)`. -/
def seek (s : Stream) (fresh : ℕ → UInt8) (offset : ℤ) (nFrom : Origin) : Stream :=
  let newp := seekTarget s.pos s.len offset nFrom
  if 0 ≤ newp then { changeSize s fresh (max s.len newp.toNat) with pos := newp.toNat % 2 ^ 32 } else s

/-- `SetLength(sz)`. -/
def setLength (s : Stream) (fresh : ℕ → UInt8) (sz : ℕ) : Stream :=
  changeSize { s with pos := min s.pos sz, used := sz } fresh sz

/-- One call, with what new memory holds. -/
def step (s : Stream) : Op × (ℕ → UInt8) → Option Stream
  | (.write buf, fresh) => some (write s fresh buf)
  | (.seek offset nFrom, fresh) => some (seek s fresh offset nFrom)
  | (.rewind, _) => some { s with pos := 0 }
  | (.setLength sz, fresh) => some (setLength s fresh sz)

end OStream

namespace OStreamFixed

/-- A new stream of the capacity `LEN`. -/
def new (p : ℕ → UInt8) (LEN : ℕ) : Stream := ⟨p, LEN, 0, 0⟩

/-- `OStreamT::Write(pBuf, co)`. -/
def write (s : Stream) (buf : List UInt8) : Stream :=
  let co := min ((s.len - s.pos) % 2 ^ 32) buf.length
  if co ≠ 0 then
    let pos := (s.pos + co) % 2 ^ 32
    { s with p := put s.p s.pos (buf.take co), pos := pos, used := if s.used < pos then pos else s.used }
  else s

/-- `StreamT::Seek(offset, nFrom)`. -/
def seek (s : Stream) (offset : ℤ) (nFrom : Origin) : Stream :=
  let newp := seekTarget s.pos s.used offset nFrom
  if 0 ≤ newp ∧ newp ≤ s.len then { s with pos := newp.toNat % 2 ^ 32 } else s

/-- `SetLength(sz)`. -/
def setLength (s : Stream) (sz : ℕ) : Stream :=
  if sz ≤ s.len then { s with pos := min s.pos sz, used := sz } else s

/-- One call. -/
def step (s : Stream) : Op → Option Stream
  | .write buf => some (write s buf)
  | .seek offset nFrom => some (seek s offset nFrom)
  | .rewind => some { s with pos := 0 }
  | .setLength sz => some (setLength s sz)

end OStreamFixed

/-! ### The abstract stream -/

/-- A seekable array of bytes. -/
structure Plain where
  bytes : List (Option UInt8)
  pos : ℕ

namespace Plain

def new : Plain := ⟨[], 0⟩

/-- Where a seek goes. -/
def target (q : Plain) (offset : ℤ) : Origin → ℤ
  | .seekBegin => offset
  | .seekCurrent => q.pos + offset
  | .seekEnd => q.bytes.length + offset

/-- One call. -/
def next (q : Plain) : Op → Plain
  | .write buf => ⟨writeAt q.bytes q.pos buf, q.pos + buf.length⟩
  | .seek offset nFrom => if 0 ≤ q.target offset nFrom then { q with pos := (q.target offset nFrom).toNat } else q
  | .rewind => { q with pos := 0 }
  | .setLength sz => ⟨resize q.bytes sz, min q.pos sz⟩

end Plain

/-- The stream has the length of the array, and the bytes of it that somebody has written. -/
structure Same (s : Stream) (q : Plain) : Prop where
  length : s.getLength = q.bytes.length
  bytes : Shows s.p q.bytes

/-! ### The conditions -/

/-- The position the code goes to is below `2 ^ 32`. -/
def Below (s : Stream) : Op → Prop
  | .write buf => s.pos + buf.length < 2 ^ 32
  | .seek offset .seekBegin => offset < 2 ^ 32
  | .seek offset .seekCurrent => -2 ^ 63 ≤ offset ∧ s.pos + offset < 2 ^ 32
  | .seek offset .seekEnd => -2 ^ 63 ≤ offset ∧ s.len + offset < 2 ^ 32
  | .rewind => True
  | .setLength sz => sz < 2 ^ 32

/-- The condition on a call of an `OStream`: what is written is within the length, and a seek from the end is made while
no memory lies behind the length, or goes to no place. -/
def Covered (s : Stream) : Op → Prop
  | .write buf => buf = [] ∨ s.pos + buf.length ≤ s.getLength
  | .seek offset .seekEnd => s.len = s.getLength ∨ s.len + offset < 0
  | _ => True

/-- The capacity is not exceeded. -/
def Fits (s : Stream) : Op → Prop
  | .write buf => s.pos + buf.length ≤ s.len
  | .seek offset .seekBegin => offset ≤ s.len
  | .seek offset .seekCurrent => -2 ^ 63 ≤ offset ∧ s.pos + offset ≤ s.len
  | .seek offset .seekEnd => -2 ^ 63 ≤ offset ∧ s.used + offset ≤ s.len
  | .rewind => True
  | .setLength sz => sz ≤ s.len

instance (s : Stream) : DecidablePred (Below s)
  | .write _ | .setLength _ => inferInstanceAs (Decidable (_ < _))
  | .seek _ .seekBegin => inferInstanceAs (Decidable (_ < _))
  | .seek _ .seekCurrent | .seek _ .seekEnd => inferInstanceAs (Decidable (_ ∧ _))
  | .rewind => isTrue trivial

instance (s : Stream) : DecidablePred (Covered s)
  | .write _ => inferInstanceAs (Decidable (_ ∨ _))
  | .seek _ .seekEnd => inferInstanceAs (Decidable (_ ∨ _))
  | .seek _ .seekBegin | .seek _ .seekCurrent | .rewind | .setLength _ => isTrue trivial

instance (s : Stream) : DecidablePred (Fits s)
  | .write _ | .setLength _ => inferInstanceAs (Decidable (_ ≤ _))
  | .seek _ .seekBegin => inferInstanceAs (Decidable (_ ≤ _))
  | .seek _ .seekCurrent | .seek _ .seekEnd => inferInstanceAs (Decidable (_ ∧ _))
  | .rewind => isTrue trivial

/-! ### One call -/

section Call

variable {s : Stream} {q : Plain} {fresh : ℕ → UInt8}

@[simp] theorem changeSize_len (s : Stream) (fresh : ℕ → UInt8) (n : ℕ) : (OStream.changeSize s fresh n).len = n := by
  rw [OStream.changeSize]
  split <;> rfl

@[simp] theorem changeSize_pos (s : Stream) (fresh : ℕ → UInt8) (n : ℕ) :
    (OStream.changeSize s fresh n).pos = s.pos := by
  rw [OStream.changeSize]
  split <;> rfl

@[simp] theorem changeSize_used (s : Stream) (fresh : ℕ → UInt8) (n : ℕ) :
    (OStream.changeSize s fresh n).used = s.used := by
  rw [OStream.changeSize]
  split <;> rfl

theorem changeSize_self (s : Stream) (fresh : ℕ → UInt8) : OStream.changeSize s fresh s.len = s := by
  rw [OStream.changeSize, if_pos le_rfl]

/-- The storage keeps what it holds, as far as it reached. -/
theorem changeSize_shows {b : List (Option UInt8)} (h : Shows s.p b) (hb : b.length ≤ s.len) (n : ℕ) :
    Shows (OStream.changeSize s fresh n).p b := by
  refine h.congr ?_
  intro i hi
  rw [OStream.changeSize]
  split
  · rfl
  · exact if_pos (hi.trans_le hb)

/-- The length after a write. -/
theorem length_write (b : List (Option UInt8)) {a : ℕ} {buf : List UInt8} (h : buf = [] ∨ a + buf.length ≤ b.length) :
    (writeAt b a buf).length = b.length := by
  by_cases hbuf : buf = []
  · rw [writeAt, if_pos hbuf]
  · rw [length_writeAt hbuf, max_eq_left (h.resolve_left hbuf)]

namespace OStream

/-- What holds between the calls of an `OStream`. -/
structure Inv (s : Stream) (q : Plain) : Prop where
  same : Same s q
  pos_eq : q.pos = s.pos
  used_le : s.used ≤ s.len
  pos_le : s.pos ≤ s.len
  len_lt : s.len < 2 ^ 32

theorem Inv.length (h : Inv s q) : q.bytes.length = s.used := h.same.length.symm

theorem inv_new (p : ℕ → UInt8) : Inv (new p) Plain.new := ⟨⟨rfl, Shows.nil p⟩, rfl, le_rfl, le_rfl, Nat.two_pow_pos 32⟩

theorem inv_write (h : Inv s q) (fresh : ℕ → UInt8) {buf : List UInt8} (hc : Covered s (.write buf)) :
    Inv (write s fresh buf) (q.next (.write buf)) := by
  have hpos := h.pos_le
  have hused := h.used_le
  have hlen := h.len_lt
  have hin : s.pos + buf.length ≤ s.len := by
    obtain rfl | hle := hc
    · exact hpos
    · exact hle.trans hused
  have hmod : (s.pos + buf.length) % 2 ^ 32 = s.pos + buf.length := Nat.mod_eq_of_lt (by omega)
  have hwrite : write s fresh buf = ⟨put s.p s.pos buf, s.len, s.pos + buf.length, s.used⟩ := by
    simp only [write, hmod, max_eq_left hin, changeSize_self]
  rw [hwrite]
  refine ⟨⟨?_, ?_⟩, ?_, hused, hin, hlen⟩
  · have hcov : buf = [] ∨ q.pos + buf.length ≤ q.bytes.length := by
      rw [h.pos_eq, h.length]
      exact hc
    rw [Plain.next, length_write _ hcov]
    exact h.same.length
  · rw [Plain.next, h.pos_eq]
    exact h.same.bytes.write s.pos buf
  · rw [Plain.next, h.pos_eq]

/-- The place a seek goes to, and whether it does. -/
theorem seek_target (h : Inv s q) {offset : ℤ} {nFrom : Origin} (hb : Below s (.seek offset nFrom))
    (hc : Covered s (.seek offset nFrom)) : seekTarget s.pos s.len offset nFrom < 2 ^ 32 ∧
      (0 ≤ seekTarget s.pos s.len offset nFrom ↔ 0 ≤ q.target offset nFrom) ∧
        (0 ≤ q.target offset nFrom → seekTarget s.pos s.len offset nFrom = q.target offset nFrom) := by
  have hlen := h.length
  have hused := h.used_le
  cases nFrom with
  | seekBegin => exact ⟨hb, Iff.rfl, fun _ => rfl⟩
  | seekCurrent =>
    have heq : longOf (s.pos + offset) = s.pos + offset := longOf_eq (by have := hb.1; omega) (by have := hb.2; omega)
    rw [seekTarget, Plain.target, heq, h.pos_eq]
    exact ⟨hb.2, Iff.rfl, fun _ => rfl⟩
  | seekEnd =>
    have heq : longOf (s.len + offset) = s.len + offset := longOf_eq (by have := hb.1; omega) (by have := hb.2; omega)
    rw [seekTarget, Plain.target, heq, hlen]
    refine ⟨hb.2, ?_, ?_⟩
    · obtain hsame | hneg := hc
      · rw [hsame, Stream.getLength]
      · omega
    · intro hnn
      obtain hsame | hneg := hc
      · rw [hsame, Stream.getLength]
      · omega

theorem inv_seek (h : Inv s q) (fresh : ℕ → UInt8) {offset : ℤ} {nFrom : Origin} (hb : Below s (.seek offset nFrom))
    (hc : Covered s (.seek offset nFrom)) : Inv (seek s fresh offset nFrom) (q.next (.seek offset nFrom)) := by
  obtain ⟨hlt, hiff, heq⟩ := seek_target h hb hc
  have hlen := h.len_lt
  have hpos := h.pos_le
  have hused := h.used_le
  by_cases hnn : 0 ≤ q.target offset nFrom
  · rw [heq hnn] at hlt
    have hmod : (q.target offset nFrom).toNat % 2 ^ 32 = (q.target offset nFrom).toNat := Nat.mod_eq_of_lt (by omega)
    rw [seek, heq hnn, Plain.next, if_pos hnn, if_pos hnn]
    refine ⟨⟨?_, ?_⟩, hmod.symm, ?_, ?_, ?_⟩
    · rw [Stream.getLength, changeSize_used]
      exact h.same.length
    · exact changeSize_shows h.same.bytes (h.length.trans_le hused) _
    · simp only [changeSize_used, changeSize_len]
      omega
    · simp only [changeSize_len, hmod]
      omega
    · simp only [changeSize_len]
      omega
  · rw [seek, if_neg (by rwa [hiff]), Plain.next, if_neg hnn]
    exact h

theorem inv_setLength (h : Inv s q) (fresh : ℕ → UInt8) {sz : ℕ} (hb : sz < 2 ^ 32) :
    Inv (setLength s fresh sz) (q.next (.setLength sz)) := by
  rw [setLength, Plain.next]
  refine ⟨⟨?_, ?_⟩, ?_, ?_, ?_, ?_⟩
  · rw [Stream.getLength, changeSize_used, length_resize]
  · have hshows : Shows (changeSize { s with pos := min s.pos sz, used := sz } fresh sz).p q.bytes :=
      changeSize_shows (s := { s with pos := min s.pos sz, used := sz }) h.same.bytes (h.length.trans_le h.used_le) sz
    exact hshows.resize sz
  · rw [changeSize_pos, h.pos_eq]
  · rw [changeSize_used, changeSize_len]
  · rw [changeSize_pos, changeSize_len]
    exact min_le_right _ _
  · rw [changeSize_len]
    exact hb

/-- **One call of an `OStream`.** -/
theorem inv_step (h : Inv s q) (a : Op × (ℕ → UInt8)) (hb : Below s a.1) (hc : Covered s a.1) :
    ∃ t, step s a = some t ∧ Inv t (q.next a.1) := by
  obtain ⟨op, fresh⟩ := a
  cases op with
  | write buf => exact ⟨_, rfl, inv_write h fresh hc⟩
  | seek offset nFrom => exact ⟨_, rfl, inv_seek h fresh hb hc⟩
  | rewind => exact ⟨_, rfl, ⟨h.same.length, h.same.bytes⟩, rfl, h.used_le, Nat.zero_le _, h.len_lt⟩
  | setLength sz => exact ⟨_, rfl, inv_setLength h fresh hb⟩

end OStream

namespace OStreamFixed

/-- What holds between the calls of an `OStreamFixed`. -/
structure Inv (LEN : ℕ) (s : Stream) (q : Plain) : Prop where
  same : Same s q
  pos_eq : q.pos = s.pos
  len_eq : s.len = LEN
  pos_le : s.pos ≤ LEN
  used_le : s.used ≤ LEN

variable {LEN : ℕ}

theorem inv_new (p : ℕ → UInt8) (LEN : ℕ) : Inv LEN (new p LEN) Plain.new :=
  ⟨⟨rfl, Shows.nil p⟩, rfl, rfl, Nat.zero_le _, Nat.zero_le _⟩

theorem inv_write (h : Inv LEN s q) (hLEN : LEN < 2 ^ 32) {buf : List UInt8} (hf : Fits s (.write buf)) :
    Inv LEN (write s buf) (q.next (.write buf)) := by
  have hlen := h.len_eq
  have hused := h.used_le
  have hfit : s.pos + buf.length ≤ s.len := hf
  have hco : min ((s.len - s.pos) % 2 ^ 32) buf.length = buf.length := by
    rw [Nat.mod_eq_of_lt (by omega), min_eq_right (by omega)]
  have hmod : (s.pos + buf.length) % 2 ^ 32 = s.pos + buf.length := Nat.mod_eq_of_lt (by omega)
  rw [write, hco, hmod, List.take_length, Plain.next, h.pos_eq]
  by_cases hbuf : buf = []
  · subst hbuf
    rw [if_neg (by simp), writeAt, if_pos rfl]
    exact ⟨⟨h.same.length, h.same.bytes⟩, rfl, hlen, h.pos_le, hused⟩
  · have hpos : buf.length ≠ 0 := fun h0 => hbuf (List.eq_nil_of_length_eq_zero h0)
    rw [if_pos hpos]
    refine ⟨⟨?_, h.same.bytes.write s.pos buf⟩, rfl, hlen, by simp only; omega, ?_⟩
    · rw [length_writeAt hbuf, ← h.same.length, Stream.getLength, Stream.getLength, max_def]
      simp only
      split <;> split <;> omega
    · simp only
      split <;> omega

theorem inv_seek (h : Inv LEN s q) (hLEN : LEN < 2 ^ 32) {offset : ℤ} {nFrom : Origin}
    (hf : Fits s (.seek offset nFrom)) :
    Inv LEN (seek s offset nFrom) (q.next (.seek offset nFrom)) := by
  have hlen := h.len_eq
  have hbytes : q.bytes.length = s.used := h.same.length.symm
  have htarget : seekTarget s.pos s.used offset nFrom = q.target offset nFrom ∧ q.target offset nFrom ≤ s.len := by
    cases nFrom with
    | seekBegin => exact ⟨rfl, hf⟩
    | seekCurrent =>
      have heq : longOf (s.pos + offset) = s.pos + offset := longOf_eq (by have := hf.1; omega) (by have := hf.2; omega)
      rw [seekTarget, Plain.target, heq, h.pos_eq]
      exact ⟨rfl, hf.2⟩
    | seekEnd =>
      have heq : longOf (s.used + offset) = s.used + offset := longOf_eq (by have := hf.1; omega) (by have := hf.2; omega)
      rw [seekTarget, Plain.target, heq, hbytes]
      exact ⟨rfl, hf.2⟩
  obtain ⟨heq, hle⟩ := htarget
  rw [seek, heq, Plain.next]
  by_cases hnn : 0 ≤ q.target offset nFrom
  · have hmod : (q.target offset nFrom).toNat % 2 ^ 32 = (q.target offset nFrom).toNat := Nat.mod_eq_of_lt (by omega)
    rw [if_pos ⟨hnn, hle⟩, if_pos hnn]
    exact ⟨⟨h.same.length, h.same.bytes⟩, hmod.symm, hlen, by simp only; omega, h.used_le⟩
  · rw [if_neg fun hcond => hnn hcond.1, if_neg hnn]
    exact h

theorem inv_setLength (h : Inv LEN s q) {sz : ℕ} (hf : sz ≤ s.len) :
    Inv LEN (setLength s sz) (q.next (.setLength sz)) := by
  have hlen := h.len_eq
  have hpos := h.pos_le
  rw [setLength, if_pos hf, Plain.next, h.pos_eq]
  exact ⟨⟨(length_resize _ _).symm, h.same.bytes.resize sz⟩, rfl, hlen, by simp only; omega, by simp only; omega⟩

/-- **One call of an `OStreamFixed`.** -/
theorem inv_step (hLEN : LEN < 2 ^ 32) (h : Inv LEN s q) (op : Op) (hf : Fits s op) :
    ∃ t, step s op = some t ∧ Inv LEN t (q.next op) := by
  cases op with
  | write buf => exact ⟨_, rfl, inv_write h hLEN hf⟩
  | seek offset nFrom => exact ⟨_, rfl, inv_seek h hLEN hf⟩
  | rewind => exact ⟨_, rfl, ⟨h.same.length, h.same.bytes⟩, rfl, h.len_eq, Nat.zero_le _, h.used_le⟩
  | setLength sz => exact ⟨_, rfl, inv_setLength h hf⟩

end OStreamFixed

end Call

/-! ### Runs -/

/-- **Memory streams.** An `OStream` whose calls meet the condition, and an `OStreamFixed` whose capacity is not
exceeded, have the length and the bytes of a seekable array. -/
theorem streams_same (p : ℕ → UInt8) :
    (∀ ops : List (Op × (ℕ → UInt8)),
      Along OStream.step (fun s a => Below s a.1 ∧ Covered s a.1) (OStream.new p) ops →
        ∃ s, run OStream.step (OStream.new p) ops = some s ∧ Same s ((ops.map Prod.fst).foldl Plain.next Plain.new)) ∧
    (∀ LEN : ℕ, LEN < 2 ^ 32 → ∀ ops : List Op,
      Along OStreamFixed.step Fits (OStreamFixed.new p LEN) ops →
        ∃ s, run OStreamFixed.step (OStreamFixed.new p LEN) ops = some s ∧ Same s (ops.foldl Plain.next Plain.new)) := by
  refine ⟨?_, ?_⟩
  · intro ops hok
    obtain ⟨s, hrun, h⟩ := hok.simulates (R := OStream.Inv) (fun q a => q.next a.1)
      (fun s q a h hok => OStream.inv_step h a hok.1 hok.2) ops (OStream.inv_new p)
    exact ⟨s, hrun, by rw [List.foldl_map]; exact h.same⟩
  · intro LEN hLEN ops hok
    obtain ⟨s, hrun, h⟩ := hok.simulates (R := OStreamFixed.Inv LEN) Plain.next
      (fun s q op h hf => OStreamFixed.inv_step hLEN h op hf) ops (OStreamFixed.inv_new p LEN)
    exact ⟨s, hrun, h.same⟩

/-- Four bytes, of which the first two and the last are written. -/
theorem streams_same_four :
    (∃ s, run OStream.step (OStream.new fun _ => 9) [(.setLength 4, fun _ => 7), (.write [1, 2], fun _ => 7),
        (.seek (-1) .seekEnd, fun _ => 7), (.write [5], fun _ => 7)] = some s ∧
      Same s ⟨[some 1, some 2, none, some 5], 4⟩) ∧
    ∃ s, run OStreamFixed.step (OStreamFixed.new (fun _ => 9) 8) [.write [1, 2], .seek 3 .seekBegin, .write [5],
        .seek (-4) .seekEnd, .write [6]] = some s ∧ Same s ⟨[some 6, some 2, none, some 5], 1⟩ := by
  refine ⟨?_, ?_⟩
  · exact (streams_same fun _ => 9).1 [(.setLength 4, fun _ => 7), (.write [1, 2], fun _ => 7),
      (.seek (-1) .seekEnd, fun _ => 7), (.write [5], fun _ => 7)] (by decide)
  · exact (streams_same fun _ => 9).2 8 (by decide) [.write [1, 2], .seek 3 .seekBegin, .write [5], .seek (-4) .seekEnd,
      .write [6]] (by decide)

/-- An `OStream` that was written to and never told its length has the length zero. An `OStreamFixed` has the three
bytes. -/
theorem ostream_length_lost :
    (¬ ∀ (p : ℕ → UInt8) (ops : List (Op × (ℕ → UInt8))),
      Along OStream.step (fun s a => Below s a.1) (OStream.new p) ops →
        ∃ s, run OStream.step (OStream.new p) ops = some s ∧ Same s ((ops.map Prod.fst).foldl Plain.next Plain.new)) ∧
    (run OStreamFixed.step (OStreamFixed.new (fun _ => 9) 8) [.write [1, 2, 3]]).map Stream.getLength = some 3 := by
  refine ⟨?_, rfl⟩
  intro h
  obtain ⟨s, hrun, hsame⟩ := h (fun _ => 9) [(.write [1, 2, 3], fun _ => 7)] (by decide)
  have hlen : s.getLength = 3 := hsame.length
  have hzero : (run OStream.step (OStream.new fun _ => 9) [(.write [1, 2, 3], fun _ => 7)]).map Stream.getLength =
    some 0 := rfl
  rw [hrun, Option.map_some, hlen] at hzero
  cases hzero

end Cpcf.Rt.MemoryStream

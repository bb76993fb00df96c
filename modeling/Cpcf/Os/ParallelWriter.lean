import Cpcf.Lib.Extent
import Cpcf.Lib.Run
import Cpcf.Lib.Word

/-!
`ParallelWriter` of `os/multi_thread.h`: chunks are claimed in a front buffer and written down from a back
buffer, and the two are exchanged after each round.

A chunk has a header of two words, its size and its length, where a length of `INFINITE` says that it is not
finalised. `ClaimWriting` adds the size of a chunk to `Used` in any case and writes the header only when there
is room; `_WriteDownBackBuffer` finds the chunks again by their sizes and clears the buffer. `Open` does not
clear the pool. The actual writer is the list of the byte strings that are passed to it.

Beside the buffers stands the history: the chunks of each buffer and those that were written down, all in the
order in which they were claimed, each with the bytes the caller has filled in and those it was finalised with.
-/

namespace Cpcf.Os.ParallelWriter

open Cpcf.Lib.Memory Cpcf.Lib.Word Cpcf.Lib.Run Cpcf.Lib.Extent

/-! ### The machine -/

/-- `INFINITE`. -/
def INFINITE : ℕ := 0xffffffff

/-- `_ChunkHeaderSize`. -/
def chunkHeaderSize : ℕ := 8

/-- A claimed chunk: where its header is, its size, what was filled in, and the bytes it was finalised with. -/
structure Chunk where
  pos : ℕ
  size : ℕ
  filled : ℕ → Option UInt8
  bytes : Option (List UInt8)

/-- The data of a chunk. -/
def Chunk.data (c : Chunk) : ℕ := c.pos + chunkHeaderSize

/-- The end of a chunk. -/
def Chunk.stop (c : Chunk) : ℕ := c.pos + chunkHeaderSize + c.size

/-- A `_WriteBuf`, with its chunks and where they end; whether a claim has failed in it, and whether it was not
cleared since `Open`. -/
structure Buf where
  pBuf : ℕ
  used : ℕ
  chunks : List Chunk
  stop : ℕ
  failed : Bool
  fresh : Bool

/-- The writer and its history. Pointers are offsets in the pool. -/
structure State where
  pool : Mem
  poolSize : ℕ
  writeBufferSize : ℕ
  front : Buf
  back : Buf
  stat_TotalClaimed : ℤ
  stat_ClaimFailure : ℤ
  stat_FinalizeFailure : ℤ
  stat_UnfinalizedChunk : ℤ
  /-- What was passed to the actual writer. -/
  output : List (List UInt8)
  /-- What `ClaimWriting` has returned, with the sizes. -/
  claims : List (ℕ × ℕ)
  failures : ℕ
  /-- The chunks of the buffers that were written down. -/
  closed : List Chunk

/-- All chunks, in the order in which they were claimed. -/
def State.history (s : State) : List Chunk := s.closed ++ s.back.chunks ++ s.front.chunks

/-- A change to the chunks of the buffers. -/
def State.mapChunks (s : State) (f : Chunk → Chunk) : State :=
  { s with
    front := { s.front with chunks := s.front.chunks.map f }
    back := { s.back with chunks := s.back.chunks.map f } }

/-- `Open(buffer_size)`, in a pool that holds anything. -/
def start (buffer_size : ℕ) (pool : Mem) : State :=
  let size := ((buffer_size + 3) % 2 ^ 32 &&& 0xffffffffc) % 2 ^ 32
  { pool := pool
    poolSize := 2 * size % 2 ^ 32
    writeBufferSize := size
    front := ⟨0, 0, [], 0, false, true⟩
    back := ⟨size, 0, [], size, false, true⟩
    stat_TotalClaimed := 0
    stat_ClaimFailure := 0
    stat_FinalizeFailure := 0
    stat_UnfinalizedChunk := 0
    output := []
    claims := []
    failures := 0
    closed := [] }

/-- `ClaimWriting(size)`, with the pointer to the data. -/
def claimWriting (s : State) (size : ℕ) : State × Option ℕ :=
  let chunk := s.front.used
  let used := s.front.used + (size + chunkHeaderSize)
  let s := { s with stat_TotalClaimed := intOf (s.stat_TotalClaimed + 1) }
  if ((chunk + size + chunkHeaderSize : ℕ) : ℤ) ≤ intOf s.writeBufferSize then
    let p := s.front.pBuf + chunk
    ({ s with
        pool := store (store s.pool p 4 size) (p + 4) 4 INFINITE
        front := { s.front with
                   used := used
                   chunks := s.front.chunks ++ [⟨p, size, fun _ => none, none⟩]
                   stop := p + chunkHeaderSize + size }
        claims := s.claims ++ [(p + chunkHeaderSize, size)] }, some (p + chunkHeaderSize))
  else
    ({ s with
        front := { s.front with used := used, failed := true }
        stat_ClaimFailure := intOf (s.stat_ClaimFailure + 1)
        failures := s.failures + 1 }, none)

/-- `FinalizeWritten(pBuf, len)`. -/
def finalizeWritten (s : State) (pBuf len : ℕ) : State :=
  let p := pBuf - chunkHeaderSize
  if len ≤ load s.pool p 4 ∧ load s.pool (p + 4) 4 = INFINITE ∧ load s.pool p 4 < s.writeBufferSize then
    { s with pool := store s.pool (p + 4) 4 len }
  else { s with stat_FinalizeFailure := intOf (s.stat_FinalizeFailure + 1) }

/-- The loop of `_WriteDownBackBuffer` from the chunk at `p` on: what is written, and how many chunks are not
finalised. Each chunk is at least a header long, so `pend - p` steps are enough. -/
def walk (m : Mem) (pend : ℕ) : ℕ → ℕ → List (List UInt8) × ℕ
  | 0, _ => ([], 0)
  | n + 1, p =>
    if p < pend then
      let size := load m p 4
      let length := load m (p + 4) 4
      if size ≠ 0 then
        let rest := walk m pend n (p + chunkHeaderSize + size)
        if length = INFINITE then (rest.1, rest.2 + 1)
        else if length > 0 then (read m (p + chunkHeaderSize) length :: rest.1, rest.2)
        else rest
      else ([], 0)
    else ([], 0)

/-- `pend`, as a pointer; it may lie before the buffer. -/
def pend (s : State) : ℕ := (s.back.pBuf + min (s.back.used : ℤ) (intOf (s.writeBufferSize - 8))).toNat

/-- `rt::Zero`. -/
def zero (m : Mem) (p n : ℕ) : Mem := fun a => if p ≤ a ∧ a < p + n then 0 else m a

/-- `_WriteDownBackBuffer()`. The use rate is a quotient by `_WriteBufferSize/1024`, and the whole buffer is
cleared: `none` says that the divisor is zero or that the buffer is not in the pool. -/
def writeDownBackBuffer (s : State) : Option State :=
  let w := walk s.pool (pend s) (pend s - s.back.pBuf) s.back.pBuf
  if (s.back.used : ℤ) < intOf s.writeBufferSize ∧ s.writeBufferSize / 1024 = 0 then none
  else if s.poolSize < s.back.pBuf + s.writeBufferSize then none
  else
    some { s with
           pool := zero s.pool s.back.pBuf s.writeBufferSize
           back := ⟨s.back.pBuf, 0, [], s.back.pBuf, false, false⟩
           stat_UnfinalizedChunk := intOf (s.stat_UnfinalizedChunk + w.2)
           output := s.output ++ w.1
           closed := s.closed ++ s.back.chunks }

/-- A round: the back buffer is written down, and the buffers are exchanged. -/
def round (s : State) : Option State :=
  (writeDownBackBuffer s).map fun s => { s with front := s.back, back := s.front }

/-- What can happen. -/
inductive Action
  | claim (size : ℕ)
  | fill (pBuf i : ℕ) (x : UInt8)
  | finalize (pBuf len : ℕ)
  | round

/-- The chunk with the data at `pBuf` is changed. -/
def Chunk.at (pBuf : ℕ) (f : Chunk → Chunk) (c : Chunk) : Chunk := if c.data = pBuf then f c else c

/-- A byte of the chunk is filled in. -/
def Chunk.fill (i : ℕ) (x : UInt8) (c : Chunk) : Chunk := { c with filled := Function.update c.filled i (some x) }

/-- The chunk is finalised with the bytes `bytes`. -/
def Chunk.finalize (bytes : List UInt8) (c : Chunk) : Chunk := { c with bytes := some bytes }

/-- A step of the callers or of the writing thread, with its mark in the history. -/
def act (s : State) : Action → Option State
  | .claim size => some (claimWriting s size).1
  | .fill pBuf i x => some ({ s with pool := poke s.pool (pBuf + i) x }.mapChunks (Chunk.at pBuf (Chunk.fill i x)))
  | .finalize pBuf len =>
    some ((finalizeWritten s pBuf len).mapChunks (Chunk.at pBuf (Chunk.finalize (read s.pool pBuf len))))
  | .round => round s

/-- Is `pBuf` the data of a chunk that is not finalised, with room for `n` bytes? -/
def State.IsOpen (s : State) (pBuf n : ℕ) : Prop :=
  ∃ c ∈ s.back.chunks ++ s.front.chunks, c.data = pBuf ∧ c.bytes = none ∧ n ≤ c.size

instance (s : State) (pBuf n : ℕ) : Decidable (s.IsOpen pBuf n) :=
  inferInstanceAs (Decidable (∃ c ∈ s.back.chunks ++ s.front.chunks, _))

/-- The use the callers make of the writer: chunks have a size, no sum exceeds an `int`, a claimed chunk is filled
and finalised within its size, and before its buffer is written down. -/
def Allowed (s : State) : Action → Prop
  | .claim size => 0 < size ∧ s.front.used + (size + chunkHeaderSize) < 2 ^ 31
  | .fill pBuf i _ => s.IsOpen pBuf (i + 1)
  | .finalize pBuf len => s.IsOpen pBuf len
  | .round => ∀ c ∈ s.back.chunks, c.bytes.isSome = true

/-- The condition on a step: fewer than `2^31` claims fail; and at a round the pool has room for both buffers, the
use rate has a divisor, and behind the last chunk of a buffer that was not cleared yet there is no size when a
claim has failed in it. -/
def Ok (s : State) : Action → Prop
  | .claim size =>
    ((s.front.used + size + chunkHeaderSize : ℕ) : ℤ) ≤ intOf s.writeBufferSize ∨ s.failures + 1 < 2 ^ 31
  | .round =>
    s.writeBufferSize < 2 ^ 31 ∧ (1024 ≤ s.writeBufferSize ∨ s.writeBufferSize ≤ s.back.used) ∧
      (s.back.fresh = true → s.back.failed = true →
        s.back.pBuf + s.writeBufferSize ≤ s.back.stop + 8 ∨ load s.pool s.back.stop 4 = 0)
  | _ => True

/-- The byte strings of the finalised chunks that are not empty. -/
def delivered (cs : List Chunk) : List (List UInt8) := (cs.filterMap Chunk.bytes).filter fun bytes => bytes ≠ []

/-! ### A buffer and its chunks -/

theorem Chunk.pos_add_le_stop (c : Chunk) : c.pos + 8 ≤ c.stop := Nat.le_add_right _ _

theorem Chunk.pos_le_stop (c : Chunk) : c.pos ≤ c.stop := Nat.le_of_add_right_le c.pos_add_le_stop

/-- The length in the header of a chunk. -/
def Chunk.length (c : Chunk) : ℕ := c.bytes.elim INFINITE List.length

/-- The header of a chunk and its finalised bytes are in the pool. -/
structure Held (m : Mem) (c : Chunk) : Prop where
  size_pos : 0 < c.size
  size_lt : c.size < 2 ^ 31
  size_eq : load m c.pos 4 = c.size
  length_eq : load m (c.pos + 4) 4 = c.length
  filled : ∀ i x, c.filled i = some x → i < c.size ∧ m (c.data + i) = x
  bytes : ∀ bytes ∈ c.bytes, bytes.length ≤ c.size ∧ Holds m c.data bytes

theorem Held.congr {m m' : Mem} {c : Chunk} (h : Held m c) (hm : ∀ a, c.pos ≤ a → a < c.stop → m' a = m a) :
    Held m' c := by
  have hstop : c.stop = c.pos + 8 + c.size := rfl
  have hdata : c.data = c.pos + 8 := rfl
  refine ⟨h.size_pos, h.size_lt, ?_, ?_, ?_, ?_⟩
  · rw [← h.size_eq]
    exact load_congr fun a h1 h2 => hm a h1 (by omega)
  · rw [← h.length_eq]
    exact load_congr fun a h1 h2 => hm a (by omega) (by omega)
  · intro i x hx
    obtain ⟨hlt, heq⟩ := h.filled i x hx
    rw [hm _ (by omega) (by omega)]
    exact ⟨hlt, heq⟩
  · intro bytes hb
    obtain ⟨hlen, hold⟩ := h.bytes bytes hb
    exact ⟨hlen, hold.congr fun a h1 h2 => hm a (by omega) (by omega)⟩

/-- The chunk was finalised within its size, and with what was filled in. -/
def Chunk.Done (c : Chunk) : Prop :=
  ∃ bytes, c.bytes = some bytes ∧ bytes.length ≤ c.size ∧
    ∀ i x, c.filled i = some x → ∀ h : i < bytes.length, bytes[i] = x

theorem Held.done {m : Mem} {c : Chunk} (h : Held m c) (hc : c.bytes.isSome = true) : c.Done := by
  obtain ⟨bytes, hb⟩ := Option.isSome_iff_exists.mp hc
  obtain ⟨hlen, hold⟩ := h.bytes bytes hb
  refine ⟨bytes, hb, hlen, ?_⟩
  intro i x hx hi
  rw [← hold.get hi]
  exact (h.filled i x hx).2

/-- The chunks fill the buffer from its start, `Used` is where they end or beyond the end of the buffer, and a
buffer that was cleared is empty behind them. -/
structure BufOk (m : Mem) (size : ℕ) (b : Buf) : Prop where
  chain : Chain Chunk.pos Chunk.stop b.pBuf b.chunks b.stop
  inside : b.stop ≤ b.pBuf + size
  used : b.failed = false ∧ b.pBuf + b.used = b.stop ∨ b.failed = true ∧ intOf size < b.used
  clean : b.fresh = false → ∀ a, b.stop ≤ a → a < b.pBuf + size → m a = 0
  held : ∀ c ∈ b.chunks, Held m c

section Buf

variable {m m' : Mem} {size : ℕ} {b : Buf} {c : Chunk}

theorem BufOk.chunk_mem (h : BufOk m size b) (hc : c ∈ b.chunks) : b.pBuf ≤ c.pos ∧ c.stop ≤ b.stop :=
  h.chain.mem Chunk.pos_le_stop hc

/-- Two chunks of a buffer do not overlap. -/
theorem BufOk.apart (h : BufOk m size b) {d : Chunk} (hc : c ∈ b.chunks) (hd : d ∈ b.chunks) (hne : c ≠ d) :
    c.stop ≤ d.pos ∨ d.stop ≤ c.pos := by
  have hpw : b.chunks.Pairwise fun c d => c.stop ≤ d.pos ∨ d.stop ≤ c.pos :=
    (h.chain.pairwise Chunk.pos_le_stop).imp Or.inl
  have : Std.Symm fun c d : Chunk => c.stop ≤ d.pos ∨ d.stop ≤ c.pos := ⟨fun _ _ h => h.symm⟩
  exact hpw.forall hc hd hne

/-- Nothing of the buffer is written to. -/
theorem BufOk.congr (h : BufOk m size b) (hm : ∀ a, b.pBuf ≤ a → a < b.pBuf + size → m' a = m a) : BufOk m' size b := by
  have hle := h.chain.le Chunk.pos_le_stop
  refine ⟨h.chain, h.inside, h.used, ?_, ?_⟩
  · intro hf a h1 h2
    rw [hm a (by omega) h2]
    exact h.clean hf a h1 h2
  · intro c hc
    obtain ⟨h1, h2⟩ := h.chunk_mem hc
    have h3 := h.inside
    exact (h.held c hc).congr fun a h4 h5 => hm a (by omega) (by omega)

/-- One chunk is changed, and nothing in the buffer but that chunk. -/
theorem BufOk.map (h : BufOk m size b) (hc : c ∈ b.chunks) {f : Chunk → Chunk} (hpos : ∀ d, (f d).pos = d.pos)
    (hsize : ∀ d, (f d).size = d.size) (hother : ∀ d, d.pos ≠ c.pos → f d = d)
    (hmem : ∀ a, a < c.pos ∨ c.stop ≤ a → m' a = m a) (hheld : Held m c → Held m' (f c)) :
    BufOk m' size { b with chunks := b.chunks.map f } := by
  have hstop : ∀ d, (f d).stop = d.stop := by
    intro d
    rw [Chunk.stop, Chunk.stop, hpos, hsize]
  have hcs := h.chunk_mem hc
  refine ⟨h.chain.map hpos hstop, h.inside, h.used, ?_, ?_⟩
  · intro hf a h1 h2
    rw [hmem a (Or.inr (hcs.2.trans h1))]
    exact h.clean hf a h1 h2
  · intro d' hd'
    obtain ⟨d, hd, rfl⟩ := List.mem_map.mp hd'
    by_cases hne : d = c
    · rw [hne]
      exact hheld (h.held c hc)
    · have hap := h.apart hd hc hne
      have h1 := c.pos_add_le_stop
      have h2 := d.pos_add_le_stop
      rw [hother d (by omega)]
      exact (h.held d hd).congr fun a h3 h4 => hmem a (by omega)

end Buf

/-! ### The walk -/

section Walk

variable {m : Mem} {pend n p e : ℕ} {c : Chunk} {cs : List Chunk}

theorem delivered_cons (c : Chunk) (cs : List Chunk) {bytes : List UInt8} (h : c.bytes = some bytes) :
    delivered (c :: cs) = (if bytes ≠ [] then [bytes] else []) ++ delivered cs := by
  rw [delivered, List.filterMap_cons_some h, List.filter_cons, delivered]
  by_cases hb : bytes = [] <;> simp [hb]

theorem delivered_append (cs ds : List Chunk) : delivered (cs ++ ds) = delivered cs ++ delivered ds := by
  rw [delivered, List.filterMap_append, List.filter_append]
  rfl

/-- The walk passes through the chunks, writes each one that is not empty, and stops behind the last one. -/
theorem walk_eq (hchain : Chain Chunk.pos Chunk.stop p cs e) (hheld : ∀ c ∈ cs, Held m c)
    (hdone : ∀ c ∈ cs, c.bytes.isSome = true) (hin : ∀ c ∈ cs, c.pos < pend) (hend : pend ≤ e ∨ load m e 4 = 0)
    (hn : pend - p ≤ n) : walk m pend n p = (delivered cs, 0) := by
  induction cs generalizing p n with
  | nil =>
    obtain rfl : p = e := hchain
    cases n with
    | zero => rfl
    | succ n =>
      rw [walk]
      split
      · have hz : load m p 4 = 0 := hend.resolve_left (by omega)
        simp [hz, delivered]
      · rfl
  | cons c cs ih =>
    obtain ⟨rfl, hchain⟩ := hchain
    have hc := hheld c (by simp)
    have hlt := hin c (by simp)
    have hge := c.pos_add_le_stop
    have hstop : c.pos + chunkHeaderSize + c.size = c.stop := rfl
    obtain ⟨bytes, hb⟩ := Option.isSome_iff_exists.mp (hdone c (by simp))
    obtain ⟨hle, hold⟩ := hc.bytes bytes hb
    have hlen : load m (c.pos + 4) 4 = bytes.length := by rw [hc.length_eq, Chunk.length, hb]; rfl
    have hfin : bytes.length ≠ INFINITE := by
      have := hc.size_lt
      rw [INFINITE]
      omega
    obtain ⟨k, rfl⟩ : ∃ k, n = k + 1 := ⟨n - 1, by omega⟩
    have hrest := ih (n := k) hchain (fun d hd => hheld d (by simp [hd])) (fun d hd => hdone d (by simp [hd]))
      (fun d hd => hin d (by simp [hd])) (by omega)
    have hne : c.size ≠ 0 := hc.size_pos.ne'
    have hread : read m (c.pos + chunkHeaderSize) bytes.length = bytes := hold.read_eq
    rw [walk, if_pos hlt]
    simp only [hc.size_eq, hlen, hne, hfin, hstop, hrest, hread, if_true, if_false, ne_eq, not_false_eq_true]
    rw [delivered_cons c cs hb]
    by_cases hnil : bytes = []
    · simp [hnil]
    · have hpos : bytes.length > 0 := List.length_pos_of_ne_nil hnil
      simp [hnil, hpos]

end Walk

/-! ### The invariant -/

/-- The buffers are in order and apart, and what was written are the closed chunks. -/
structure Inv (s : State) : Prop where
  front : BufOk s.pool s.writeBufferSize s.front
  back : BufOk s.pool s.writeBufferSize s.back
  apart : s.front.pBuf + s.writeBufferSize ≤ s.back.pBuf ∨ s.back.pBuf + s.writeBufferSize ≤ s.front.pBuf
  size_lt : s.writeBufferSize < 2 ^ 32
  inPool : s.writeBufferSize < 2 ^ 31 →
    s.front.pBuf + s.writeBufferSize ≤ s.poolSize ∧ s.back.pBuf + s.writeBufferSize ≤ s.poolSize
  output : s.output = delivered s.closed
  closed : ∀ c ∈ s.closed, c.Done
  claims : s.claims = s.history.map fun c => (c.data, c.size)
  failures : s.stat_ClaimFailure = s.failures
  failures_lt : s.failures < 2 ^ 31

theorem inv_start (buffer_size : ℕ) (pool : Mem) : Inv (start buffer_size pool) := by
  have hempty : ∀ p size, BufOk pool size ⟨p, 0, [], p, false, true⟩ := by
    intro p size
    refine ⟨rfl, Nat.le_add_right _ _, Or.inl ⟨rfl, rfl⟩, fun hf => Bool.noConfusion hf, fun c hc => ?_⟩
    cases hc
  refine ⟨hempty _ _, hempty _ _, Or.inl (Nat.zero_add _).le, Nat.mod_lt _ (by norm_num), ?_, rfl, ?_, rfl, rfl,
    by simp [start]⟩
  · intro hlt
    simp only [start] at hlt ⊢
    omega
  · intro c hc
    cases hc

section Step

variable {s t : State}

/-! #### `ClaimWriting` -/

/-- The header of a new chunk behind the others. -/
theorem BufOk.claim {m : Mem} {size : ℕ} {b : Buf} (h : BufOk m size b) {n : ℕ} (hn : 0 < n)
    (hlt : b.used + (n + chunkHeaderSize) < 2 ^ 31) (hsize : size < 2 ^ 32)
    (hroom : ((b.used + n + chunkHeaderSize : ℕ) : ℤ) ≤ intOf size) :
    BufOk (store (store m (b.pBuf + b.used) 4 n) (b.pBuf + b.used + 4) 4 INFINITE) size
      { b with
        used := b.used + (n + chunkHeaderSize)
        chunks := b.chunks ++ [⟨b.pBuf + b.used, n, fun _ => none, none⟩]
        stop := b.pBuf + b.used + chunkHeaderSize + n } := by
  have hh : chunkHeaderSize = 8 := rfl
  have hle := intOf_le hsize
  -- after a failed claim there is no room
  obtain ⟨hfail, hstop⟩ : b.failed = false ∧ b.pBuf + b.used = b.stop := by
    refine h.used.resolve_right ?_
    rintro ⟨-, hu⟩
    omega
  have hout : ∀ a, a < b.pBuf + b.used ∨ b.pBuf + b.used + 8 ≤ a →
      store (store m (b.pBuf + b.used) 4 n) (b.pBuf + b.used + 4) 4 INFINITE a = m a := by
    intro a ha
    rw [store_outside _ _ (by omega), store_outside _ _ (by omega)]
  refine ⟨?_, by simp only; omega, Or.inl ⟨hfail, by simp only; omega⟩, ?_, ?_⟩
  · exact h.chain.snoc (b := ⟨b.pBuf + b.used, n, fun _ => none, none⟩) hstop
  · intro hf a h1 h2
    simp only at h1 h2
    rw [hout a (by omega)]
    exact h.clean hf a (by omega) h2
  · intro c hc
    rcases List.mem_append.mp hc with hc | hc
    · have hcs := (h.chunk_mem hc).2
      exact (h.held c hc).congr fun a h1 h2 => hout a (by omega)
    · obtain rfl : c = ⟨b.pBuf + b.used, n, fun _ => none, none⟩ := by simpa using hc
      refine ⟨hn, by simp only; omega, ?_, ?_, ?_, ?_⟩
      · simp only
        rw [load_store_other _ (by omega), load_store_same]
        exact Nat.mod_eq_of_lt (by omega)
      · simp only
        rw [load_store_same]
        rfl
      · rintro i x ⟨⟩
      · rintro bytes ⟨⟩

theorem inv_claim (hi : Inv s) {n : ℕ} (hok : Ok s (.claim n)) (hal : Allowed s (.claim n)) :
    Inv (claimWriting s n).1 := by
  have hh : chunkHeaderSize = 8 := rfl
  obtain ⟨hn, hlt⟩ := hal
  rw [Ok] at hok
  unfold claimWriting
  simp only
  split
  · rename_i hroom
    have hle := intOf_le hi.size_lt
    refine { hi with front := hi.front.claim hn hlt hi.size_lt hroom, back := ?_, claims := ?_ }
    · have hap := hi.apart
      have hin : s.front.pBuf + s.front.used + 8 ≤ s.front.pBuf + s.writeBufferSize := by omega
      have hout : ∀ a, s.back.pBuf ≤ a → a < s.back.pBuf + s.writeBufferSize →
          store (store s.pool (s.front.pBuf + s.front.used) 4 n) (s.front.pBuf + s.front.used + 4) 4 INFINITE a =
            s.pool a := by
        intro a h1 h2
        rw [store_outside _ _ (by omega), store_outside _ _ (by omega)]
      exact hi.back.congr hout
    · have hcl := hi.claims
      simp only [State.history] at hcl ⊢
      rw [hcl]
      simp [Chunk.data]
  · rename_i hroom
    have hf := hi.front
    have hlt31 : s.failures + 1 < 2 ^ 31 := hok.resolve_left hroom
    refine { hi with front := ?_, failures := ?_, failures_lt := hlt31 }
    · refine ⟨hf.chain, hf.inside, Or.inr ⟨rfl, ?_⟩, hf.clean, hf.held⟩
      simp only
      push_cast at hroom ⊢
      omega
    · simp only [hi.failures]
      rw [intOf_eq (by omega) (by omega)]
      push_cast
      rfl

/-! #### Filling and finalising -/

/-- A chunk of one of the buffers is changed, and nothing in the pool but that chunk. -/
theorem inv_map (hi : Inv s) {c : Chunk} (hc : c ∈ s.back.chunks ++ s.front.chunks) {m : Mem} {f : Chunk → Chunk}
    (hpos : ∀ d, (f d).pos = d.pos) (hsize : ∀ d, (f d).size = d.size) (hother : ∀ d, d.pos ≠ c.pos → f d = d)
    (hmem : ∀ a, a < c.pos ∨ c.stop ≤ a → m a = s.pool a)
    (hheld : Held s.pool c → Held m (f c)) :
    Inv ({ s with pool := m }.mapChunks f) := by
  -- the other buffer has no chunk there
  have hsame : ∀ b b' : Buf, BufOk s.pool s.writeBufferSize b → BufOk s.pool s.writeBufferSize b' → c ∈ b.chunks →
      (b.pBuf + s.writeBufferSize ≤ b'.pBuf ∨ b'.pBuf + s.writeBufferSize ≤ b.pBuf) →
      BufOk m s.writeBufferSize { b' with chunks := b'.chunks.map f } := by
    intro b b' hb hb' hcb hap
    obtain ⟨h1, h2⟩ := hb.chunk_mem hcb
    have h3 := hb.inside
    have h4 := c.pos_add_le_stop
    have hid : b'.chunks.map f = b'.chunks := by
      refine (List.map_congr_left fun d hd => hother d ?_).trans (List.map_id _)
      obtain ⟨h5, h6⟩ := hb'.chunk_mem hd
      have h7 := hb'.inside
      have h8 := d.pos_add_le_stop
      omega
    rw [hid]
    exact hb'.congr fun a h5 h6 => hmem a (by omega)
  have hbufs : BufOk m s.writeBufferSize { s.front with chunks := s.front.chunks.map f } ∧
      BufOk m s.writeBufferSize { s.back with chunks := s.back.chunks.map f } := by
    rcases List.mem_append.mp hc with hc | hc
    · exact ⟨hsame _ _ hi.back hi.front hc hi.apart.symm,
        hi.back.map hc hpos hsize hother hmem hheld⟩
    · exact ⟨hi.front.map hc hpos hsize hother hmem hheld,
        hsame _ _ hi.front hi.back hc hi.apart⟩
  refine { hi with front := hbufs.1, back := hbufs.2, claims := ?_ }
  have hcl := hi.claims
  have hdata : (fun c : Chunk => (c.data, c.size)) ∘ f = fun c => (c.data, c.size) := by
    funext d
    rw [Function.comp_apply, Chunk.data, Chunk.data, hpos, hsize]
  simp only [State.history, State.mapChunks, List.map_append] at hcl ⊢
  rw [hcl, List.map_map, List.map_map, hdata]

/-- The chunk with the data of `c` is changed, but not moved. -/
theorem inv_at (hi : Inv s) {c : Chunk} (hc : c ∈ s.back.chunks ++ s.front.chunks) {m : Mem} {f : Chunk → Chunk}
    (hpos : ∀ d, (f d).pos = d.pos) (hsize : ∀ d, (f d).size = d.size)
    (hmem : ∀ a, a < c.pos ∨ c.stop ≤ a → m a = s.pool a) (hheld : Held s.pool c → Held m (f c)) :
    Inv ({ s with pool := m }.mapChunks (Chunk.at c.data f)) := by
  refine inv_map hi hc ?_ ?_ ?_ hmem ?_
  · intro d
    unfold Chunk.at
    split
    · exact hpos d
    · rfl
  · intro d
    unfold Chunk.at
    split
    · exact hsize d
    · rfl
  · intro d hd
    refine if_neg ?_
    rw [Chunk.data, Chunk.data]
    omega
  · rw [Chunk.at, if_pos rfl]
    exact hheld

theorem inv_fill (hi : Inv s) {p i : ℕ} {x : UInt8} (hal : Allowed s (.fill p i x)) :
    Inv ({ s with pool := poke s.pool (p + i) x }.mapChunks (Chunk.at p (Chunk.fill i x))) := by
  obtain ⟨c, hc, rfl, hnone, hlt⟩ := hal
  have hstop : c.stop = c.pos + 8 + c.size := rfl
  have hdata : c.data = c.pos + 8 := rfl
  refine inv_at hi hc (fun _ => rfl) (fun _ => rfl) (fun a ha => poke_other _ _ (by omega)) ?_
  intro hh
  -- the header stays, and there are no finalised bytes yet
  refine ⟨hh.size_pos, hh.size_lt, ?_, ?_, ?_, ?_⟩
  · refine (load_congr (p := c.pos) fun a h1 h2 => ?_).trans hh.size_eq
    exact poke_other _ _ (by omega)
  · refine (load_congr (p := c.pos + 4) fun a h1 h2 => ?_).trans hh.length_eq
    exact poke_other _ _ (by omega)
  · intro j y hy
    change Function.update c.filled i (some x) j = some y at hy
    by_cases hj : j = i
    · subst hj
      rw [Function.update_self] at hy
      cases hy
      exact ⟨hlt, poke_same _ _ _⟩
    · rw [Function.update_of_ne hj] at hy
      obtain ⟨h1, h2⟩ := hh.filled j y hy
      have h3 : c.data + j ≠ c.data + i := by omega
      exact ⟨h1, (poke_other _ _ h3).trans h2⟩
  · intro bytes hb
    rw [Chunk.fill, hnone] at hb
    cases hb

/-- `FinalizeWritten` accepts the chunk, for its header is in order. -/
theorem finalizeWritten_eq (hi : Inv s) {c : Chunk} (hc : c ∈ s.back.chunks ++ s.front.chunks) (hnone : c.bytes = none)
    {len : ℕ} (hlt : len ≤ c.size) :
    finalizeWritten s c.data len = { s with pool := store s.pool (c.pos + 4) 4 len } := by
  have hstop : c.stop = c.pos + 8 + c.size := rfl
  have hp : c.data - chunkHeaderSize = c.pos := by rw [Chunk.data, Nat.add_sub_cancel]
  obtain ⟨hheld, hin⟩ : Held s.pool c ∧ c.size < s.writeBufferSize := by
    rcases List.mem_append.mp hc with hc | hc
    · obtain ⟨h1, h2⟩ := hi.back.chunk_mem hc
      have h3 := hi.back.inside
      exact ⟨hi.back.held c hc, by omega⟩
    · obtain ⟨h1, h2⟩ := hi.front.chunk_mem hc
      have h3 := hi.front.inside
      exact ⟨hi.front.held c hc, by omega⟩
  have hinf : load s.pool (c.pos + 4) 4 = INFINITE := by
    rw [hheld.length_eq, Chunk.length, hnone]
    rfl
  unfold finalizeWritten
  simp only [hp, hheld.size_eq]
  rw [if_pos ⟨hlt, hinf, hin⟩]

theorem inv_finalize (hi : Inv s) {p len : ℕ} (hal : Allowed s (.finalize p len)) :
    Inv ((finalizeWritten s p len).mapChunks (Chunk.at p (Chunk.finalize (read s.pool p len)))) := by
  obtain ⟨c, hc, rfl, hnone, hlt⟩ := hal
  have hstop : c.stop = c.pos + 8 + c.size := rfl
  have hdata : c.data = c.pos + 8 := rfl
  rw [finalizeWritten_eq hi hc hnone hlt]
  refine inv_at hi hc (fun _ => rfl) (fun _ => rfl) (fun a ha => store_outside _ _ (by omega)) ?_
  intro hh
  have hsmall := hh.size_lt
  refine ⟨hh.size_pos, hh.size_lt, ?_, ?_, ?_, ?_⟩
  · show load (store s.pool (c.pos + 4) 4 len) c.pos 4 = c.size
    rw [load_store_other _ (by omega)]
    exact hh.size_eq
  · show load (store s.pool (c.pos + 4) 4 len) (c.pos + 4) 4 = (read s.pool c.data len).length
    rw [load_store_same, length_read]
    exact Nat.mod_eq_of_lt (by omega)
  · intro i x hx
    obtain ⟨h1, h2⟩ := hh.filled i x hx
    have h3 : c.pos + 4 + 4 ≤ c.data + i := by omega
    exact ⟨h1, (store_outside _ _ (Or.inr h3)).trans h2⟩
  · rintro bytes ⟨⟩
    refine ⟨by rw [length_read]; exact hlt, ?_⟩
    refine (holds_read s.pool c.data len).congr ?_
    intro a h1 h2
    have h3 : c.data ≤ a := h1
    exact store_outside _ _ (by omega)

/-! #### A round -/

/-- Every chunk of the back buffer begins before `pend`, and behind the last one `pend` can only lie when a claim
has failed. -/
theorem pend_spec (hb : BufOk s.pool s.writeBufferSize s.back) (hw : s.writeBufferSize < 2 ^ 31) :
    (∀ c ∈ s.back.chunks, c.pos < pend s) ∧
      (pend s ≤ s.back.stop ∨ s.back.failed = true ∧ pend s + 8 ≤ s.back.pBuf + s.writeBufferSize) := by
  have hint : intOf (s.writeBufferSize - 8) = s.writeBufferSize - 8 := intOf_eq (by omega) (by omega)
  have hsize : intOf s.writeBufferSize = s.writeBufferSize := intOf_eq (by omega) (by omega)
  have hin := hb.inside
  have hused := hb.used
  rw [hsize] at hused
  unfold pend
  rw [hint]
  constructor
  · intro c hc
    have hcs := (hb.chunk_mem hc).2
    have hstop : c.stop = c.pos + 8 + c.size := rfl
    have hpos := (hb.held c hc).size_pos
    rcases hused with ⟨-, hu⟩ | ⟨-, hu⟩ <;> omega
  · rcases hused with ⟨-, hu⟩ | ⟨hf, hu⟩
    · exact Or.inl (by omega)
    · by_cases h8 : s.writeBufferSize < 8
      · have hle := hb.chain.le Chunk.pos_le_stop
        exact Or.inl (by omega)
      · exact Or.inr ⟨hf, by omega⟩

/-- What is written down are the chunks of the back buffer. -/
theorem walk_back (hb : BufOk s.pool s.writeBufferSize s.back) (hok : Ok s .round) (hal : Allowed s .round) :
    walk s.pool (pend s) (pend s - s.back.pBuf) s.back.pBuf = (delivered s.back.chunks, 0) := by
  obtain ⟨hw, -, hfresh⟩ := hok
  obtain ⟨hbegin, hend⟩ := pend_spec hb hw
  refine walk_eq hb.chain hb.held hal hbegin ?_ le_rfl
  rcases hend with hend | ⟨hf, hend⟩
  · exact Or.inl hend
  · cases hfr : s.back.fresh with
    | true =>
      rcases hfresh hfr hf with h | h
      · exact Or.inl (by omega)
      · exact Or.inr h
    | false =>
      by_cases hle : pend s ≤ s.back.stop
      · exact Or.inl hle
      · exact Or.inr (load_eq_zero fun a h1 h2 => hb.clean hfr a h1 (by omega))

theorem zero_outside (m : Mem) {p n a : ℕ} (h : a < p ∨ p + n ≤ a) : zero m p n a = m a := if_neg (by omega)

theorem zero_inside (m : Mem) {p n a : ℕ} (h1 : p ≤ a) (h2 : a < p + n) : zero m p n a = 0 := if_pos ⟨h1, h2⟩

/-- A round can be taken, and keeps the invariant. -/
theorem inv_round (hi : Inv s) (hok : Ok s .round) (hal : Allowed s .round) : ∃ t, round s = some t ∧ Inv t := by
  have hwalk := walk_back hi.back hok hal
  obtain ⟨hw, hdiv, -⟩ := hok
  obtain ⟨hp1, hp2⟩ := hi.inPool hw
  have hsize : intOf s.writeBufferSize = s.writeBufferSize := intOf_eq (by omega) (by omega)
  have hnodiv : ¬((s.back.used : ℤ) < intOf s.writeBufferSize ∧ s.writeBufferSize / 1024 = 0) := by
    rw [hsize]
    omega
  refine ⟨_, by rw [round, writeDownBackBuffer, if_neg hnodiv, if_neg (by omega)]; rfl, ?_⟩
  have hap := hi.apart
  refine { hi with front := ?_, back := ?_, apart := ?_, inPool := ?_, output := ?_, closed := ?_, claims := ?_ }
  · refine ⟨rfl, Nat.le_add_right _ _, Or.inl ⟨rfl, rfl⟩, ?_, ?_⟩
    · intro _ a h1 h2
      exact zero_inside _ h1 h2
    · intro c hc
      cases hc
  · exact hi.front.congr fun a h1 h2 => zero_outside _ (by omega)
  · exact hap.symm
  · intro _
    exact ⟨hp2, hp1⟩
  · simp only [hwalk]
    rw [hi.output, delivered_append]
  · intro c hc
    rcases List.mem_append.mp hc with hc | hc
    · exact hi.closed c hc
    · exact (hi.back.held c hc).done (hal c hc)
  · have hcl := hi.claims
    simp only [State.history] at hcl ⊢
    rw [hcl, List.append_nil]

/-- Every step of the use can be taken and keeps the invariant. -/
theorem inv_act (hi : Inv s) {a : Action} (hok : Ok s a) (hal : Allowed s a) : ∃ t, act s a = some t ∧ Inv t := by
  cases a with
  | claim n => exact ⟨_, rfl, inv_claim hi hok hal⟩
  | fill p i x => exact ⟨_, rfl, inv_fill hi hal⟩
  | finalize p len => exact ⟨_, rfl, inv_finalize hi hal⟩
  | round => exact inv_round hi hok hal

end Step

/-- A step of the use that meets the condition. -/
def Good (s : State) (a : Action) : Prop := Allowed s a ∧ Ok s a

instance decidableAllowed (s : State) : ∀ a, Decidable (Allowed s a)
  | .claim size => inferInstanceAs (Decidable (0 < size ∧ _ < _))
  | .fill pBuf i _ => inferInstanceAs (Decidable (s.IsOpen pBuf (i + 1)))
  | .finalize pBuf len => inferInstanceAs (Decidable (s.IsOpen pBuf len))
  | .round => inferInstanceAs (Decidable (∀ c ∈ s.back.chunks, c.bytes.isSome = true))

instance decidableOk (s : State) : ∀ a, Decidable (Ok s a)
  | .claim _ => inferInstanceAs (Decidable (_ ≤ _ ∨ _ < _))
  | .round => inferInstanceAs (Decidable (_ < _ ∧ (_ ≤ _ ∨ _ ≤ _) ∧ (_ → _ → _ ≤ _ ∨ _ = _)))
  | .fill _ _ _ | .finalize _ _ => isTrue trivial

instance (s : State) (a : Action) : Decidable (Good s a) := inferInstanceAs (Decidable (Allowed s a ∧ Ok s a))

theorem reachable_inv {n : ℕ} {pool : Mem} {s : State} (h : Reachable act Good (start n pool) s) : Inv s := by
  refine h.invariant (inv_start n pool) ?_
  intro s a t hi hg hst
  obtain ⟨t', ht, hinv⟩ := inv_act hi hg.2 hg.1
  rw [hst] at ht
  exact Option.some.inj ht ▸ hinv

/-! ### Delivery -/

/-- What was written are the closed chunks in the order of their claims, each once and with the bytes that were
filled in; the chunks are what was claimed, and the failed claims are counted. -/
structure Delivers (s : State) : Prop where
  output : s.output = delivered s.closed
  done : ∀ c ∈ s.closed, c.Done
  claims : s.claims = s.history.map fun c => (c.data, c.size)
  failures : s.stat_ClaimFailure = s.failures

/-- In every run whose steps meet the condition, every step can be taken and what was written are the finalised
chunks in the order in which they were claimed. -/
theorem parallel_writer_delivers (buffer_size : ℕ) (pool : Mem) {s : State}
    (h : Reachable act Good (start buffer_size pool) s) :
    Delivers s ∧ ∀ a, Good s a → (act s a).isSome = true := by
  have hi := reachable_inv h
  refine ⟨⟨hi.output, hi.closed, hi.claims, hi.failures⟩, ?_⟩
  intro a ha
  obtain ⟨t, ht, -⟩ := inv_act hi ha.2 ha.1
  rw [ht]
  rfl

/-- Three claims, of which the second one fails and the third one is finalised before the first one. -/
def twoRounds : List Action :=
  [.claim 3, .claim 2000, .fill 8 0 0x41, .fill 8 1 0x42, .round, .claim 2, .fill 1032 0 0x43, .finalize 1032 1,
    .finalize 8 2, .round, .round]

theorem parallel_writer_delivers_twoRounds :
    ∃ s, run act (start 1022 fun _ => 0) twoRounds = some s ∧ s.output = [[0x41, 0x42], [0x43]] ∧
      s.stat_ClaimFailure = 1 ∧ Delivers s := by
  have hrun : (run act (start 1022 fun _ => 0) twoRounds).map (fun s => (s.output, s.stat_ClaimFailure)) =
      some ([[0x41, 0x42], [0x43]], 1) := by decide +kernel
  obtain ⟨s, hs, h⟩ := Option.map_eq_some_iff.mp hrun
  obtain ⟨hout, hfail⟩ := Prod.mk.inj h
  refine ⟨s, hs, hout, hfail, ?_⟩
  exact (parallel_writer_delivers 1022 (fun _ => 0)
    (Reachable.start.of_run twoRounds (by decide +kernel) hs)).1

/-! ### A pool that is not cleared -/

/-- What stands in a new pool: behind a chunk of ten bytes follow a size of one and a length of three. -/
def dirty : Mem := fun a => if a = 18 then 1 else if a = 22 then 3 else 0

/-- A chunk is finalised, and a claim fails. -/
def leftover : List Action := [.claim 10, .fill 8 0 0x41, .finalize 8 1, .claim 2000, .round, .round]

/-- What stood in the pool is written, and a small buffer cannot be written down at all. -/
theorem parallel_writer_delivers_fails :
    (∃ s, run act (start 1024 dirty) leftover = some s ∧ s.output = [[0x41], [0, 0, 0]] ∧
      delivered s.closed = [[0x41]]) ∧
    (¬ ∀ s, Reachable act Allowed (start 1024 dirty) s → Delivers s) ∧
    Allowed (start 512 fun _ => 0) .round ∧ act (start 512 fun _ => 0) .round = none := by
  have hrun : (run act (start 1024 dirty) leftover).map (fun s => (s.output, delivered s.closed)) =
      some ([[0x41], [0, 0, 0]], [[0x41]]) := by decide +kernel
  obtain ⟨s, hs, h⟩ := Option.map_eq_some_iff.mp hrun
  obtain ⟨hout, hdel⟩ := Prod.mk.inj h
  refine ⟨⟨s, hs, hout, hdel⟩, ?_, by decide, Option.isNone_iff_eq_none.mp (by decide)⟩
  intro hall
  have h := (hall s (Reachable.start.of_run leftover (by decide +kernel) hs)).output
  rw [hout, hdel] at h
  cases h

end Cpcf.Os.ParallelWriter

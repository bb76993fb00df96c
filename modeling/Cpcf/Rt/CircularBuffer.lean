import Cpcf.Lib.BitPack
import Cpcf.Lib.Extent
import Cpcf.Lib.Run
import Cpcf.Lib.Word

/-!
`CircularBuffer` of `rt/buffer_type.h`: blocks in a ring of bytes, taken out in the order in which they
were put in.

A block has a header of three words, `Next`, `PayloadSize` and `PayloadLength`, and its payload behind
it. `Push` places a block at `NewBlock`, or at the start of the buffer when there is no room behind
`NewBlock`, and links it to the block pushed before; `Pop` follows the link from `Back`. Offsets are
numbers below `2^64` and sums of them are cut to 64 bits.

Beside the buffer stands the list of the live blocks, in the order in which they were pushed, with what
was written to them.
-/

namespace Cpcf.Rt.CircularBuffer

open Cpcf.Lib.Memory Cpcf.Lib.Word Cpcf.Lib.BitPack Cpcf.Lib.Run Cpcf.Lib.Extent

/-! ### The buffer -/

/-- `INFINITE`. -/
def INFINITE : ℕ := 0xffffffff

/-- `sizeof(_BlockHeader)`. -/
def headerSize : ℕ := 24

/-- `_EnlargeTo32AL`. -/
def enlargeTo32AL (num : ℕ) : ℕ := ((num + 7) % 2 ^ 64) &&& ((2 ^ 64 - 1) ^^^ 7)

/-- A live block: where it is, the size of its payload, the length it was finalised with (zero before that)
and what was written to its payload. -/
structure Block where
  pos : ℕ
  payloadSize : ℕ
  payloadLength : ℕ
  payload : ℕ → Option UInt8

/-- The end of a block. -/
def Block.stop (b : Block) : ℕ := b.pos + headerSize + b.payloadSize

/-- The buffer, and the live blocks. -/
structure State where
  buffer : Mem
  bufferSize : ℕ
  back : ℕ
  newBlock : ℕ
  /-- `pLastBlock`, as an offset. -/
  last : Option ℕ
  live : List Block

/-- The offset at which `Push` places a block of `block_size` bytes, and the new value of `NewBlock`. -/
def place (s : State) (block_size : ℕ) : Option (ℕ × ℕ) :=
  let sum := (block_size + s.newBlock) % 2 ^ 64
  if (sum < s.bufferSize ∧ s.newBlock ≥ s.back) ∨ (sum < s.back ∧ s.newBlock < s.back) then some (s.newBlock, sum)
  else if s.newBlock ≥ s.back ∧ s.back > block_size then some (0, block_size)
  else none

/-- `if(pLastBlock)pLastBlock->Next = p`. -/
def linkLast (m : Mem) (p : ℕ) : Option ℕ → Mem
  | none => m
  | some l => store m l 8 p

/-- The header of a new block: `PayloadSize`, `Next` and `PayloadLength`. -/
def header (m : Mem) (p size_max : ℕ) : Mem := store (store (store m (p + 8) 8 size_max) p 8 INFINITE) (p + 16) 8 0

/-- The memory after a block was pushed. -/
def pushed (s : State) (p size_max : ℕ) : Mem := linkLast (header s.buffer p size_max) p s.last

/-- `Push`, with the offset of the payload. -/
def push (s : State) (n : ℕ) : State × Option ℕ :=
  let size_max := enlargeTo32AL n
  match place s ((size_max + headerSize) % 2 ^ 64) with
  | none => (s, none)
  | some (p, newBlock) =>
    ({ s with
        buffer := pushed s p size_max
        newBlock := newBlock
        last := some p
        live := s.live ++ [⟨p, size_max, 0, fun _ => none⟩] }, some (p + headerSize))

/-- `Pop`. -/
def pop (s : State) : State :=
  if s.back ≠ s.newBlock then
    if some s.back = s.last then { s with last := none, newBlock := 0, back := 0, live := s.live.tail }
    else { s with back := load s.buffer s.back 8, live := s.live.tail }
  else s

/-- `SetBlockSize`. -/
def setBlockSize (s : State) (pushed finalized : ℕ) : State :=
  let block := pushed - headerSize
  { s with
    buffer := store s.buffer (block + 16) 8 finalized
    live := s.live.map fun b => if b.pos = block then { b with payloadLength := finalized } else b }

/-- A byte is written to the payload at `pushed`. -/
def write (s : State) (pushed i : ℕ) (x : UInt8) : State :=
  { s with
    buffer := poke s.buffer (pushed + i) x
    live := s.live.map fun b =>
      if b.pos = pushed - headerSize then { b with payload := Function.update b.payload i (some x) } else b }

/-- `Peek`: the offset of a `Block`, which starts with its length. -/
def peek (s : State) : Option ℕ :=
  if s.back ≠ s.newBlock then
    let p := s.back + headerSize - 8
    if load s.buffer p 8 > 0 then some p else none
  else none

/-- What can be done. -/
inductive Action
  | push (n : ℕ)
  | setBlockSize (pushed finalized : ℕ)
  | write (pushed i : ℕ) (x : UInt8)
  | peek
  | pop

/-- Is `pushed` the payload of a live block? -/
def State.IsLive (s : State) (pushed : ℕ) : Prop := ∃ b ∈ s.live, b.pos + headerSize = pushed

instance (s : State) (pushed : ℕ) : Decidable (s.IsLive pushed) :=
  inferInstanceAs (Decidable (∃ b ∈ s.live, b.pos + headerSize = pushed))

/-- A step: sizes are words of 64 bits, and only live blocks are finalised or written to, inside their
payload. -/
def step (s : State) : Action → Option State
  | .push n => if n < 2 ^ 64 then some (push s n).1 else none
  | .setBlockSize pushed finalized =>
    if s.IsLive pushed ∧ finalized < 2 ^ 64 then some (setBlockSize s pushed finalized) else none
  | .write pushed i x =>
    if ∃ b ∈ s.live, b.pos + headerSize = pushed ∧ i < b.payloadSize then some (write s pushed i x) else none
  | .peek => some s
  | .pop => some (pop s)

/-- After `SetSize`. -/
def start (m : Mem) (sz : ℕ) : State := ⟨m, sz, 0, 0, none, []⟩

/-- The offsets found by following `Next`. -/
def links (m : Mem) : ℕ → ℕ → List ℕ
  | 0, _ => []
  | n + 1, p => p :: links m n (load m p 8)

/-- Rounding `n` up and adding the header does not wrap. -/
def Small (_ : State) : Action → Prop
  | .push n => (n + 7) / 8 * 8 + headerSize < 2 ^ 64
  | _ => True

/-- The end of the block does not wrap either. -/
def Fits (s : State) : Action → Prop
  | .push n => (n + 7) / 8 * 8 + headerSize + s.newBlock < 2 ^ 64
  | _ => True

instance (s : State) : ∀ a, Decidable (Small s a)
  | .push n => inferInstanceAs (Decidable ((n + 7) / 8 * 8 + headerSize < 2 ^ 64))
  | .setBlockSize _ _ | .write _ _ _ | .peek | .pop => isTrue trivial

instance (s : State) : ∀ a, Decidable (Fits s a)
  | .push n => inferInstanceAs (Decidable ((n + 7) / 8 * 8 + headerSize + s.newBlock < 2 ^ 64))
  | .setBlockSize _ _ | .write _ _ _ | .peek | .pop => isTrue trivial

/-! ### Blocks side by side -/

/-- Two blocks do not overlap. -/
def Apart (b c : Block) : Prop := b.stop ≤ c.pos ∨ c.stop ≤ b.pos

instance : Std.Symm Apart := ⟨fun _ _ h => Or.symm h⟩

theorem Block.pos_lt_stop (b : Block) : b.pos + 24 ≤ b.stop := Nat.le_add_right _ _

theorem Block.pos_le_stop (b : Block) : b.pos ≤ b.stop := Nat.le_of_add_right_le b.pos_lt_stop

/-- Where the live blocks are: from `Back` to `NewBlock`, or from `Back` to somewhere before the end of the
buffer and from its start to `NewBlock`. -/
inductive Layout (bufferSize back newBlock : ℕ) : List Block → Prop
  | straight {live : List Block} (chain : Chain Block.pos Block.stop back live newBlock) (empty : live = [] → back = 0)
      (inside : newBlock ≤ bufferSize) : Layout bufferSize back newBlock live
  | wrapped {hi lo : List Block} {e : ℕ} (hi_ne : hi ≠ []) (lo_ne : lo ≠ []) (upper : Chain Block.pos Block.stop back hi e)
      (inside : e ≤ bufferSize) (lower : Chain Block.pos Block.stop 0 lo newBlock) (lt : newBlock < back) :
      Layout bufferSize back newBlock (hi ++ lo)

section Layout

variable {bufferSize back newBlock : ℕ} {live : List Block} {b c : Block}

theorem Layout.inside (h : Layout bufferSize back newBlock live) (hb : b ∈ live) : b.stop ≤ bufferSize := by
  cases h with
  | straight chain _ hin => exact (chain.mem Block.pos_le_stop hb).2.trans hin
  | wrapped _ _ upper hin lower hlt =>
    rcases List.mem_append.mp hb with hb | hb
    · exact (upper.mem Block.pos_le_stop hb).2.trans hin
    · have h1 := (lower.mem Block.pos_le_stop hb).2
      have h2 := (upper.le Block.pos_le_stop)
      omega

theorem Layout.newBlock_le (h : Layout bufferSize back newBlock live) : newBlock ≤ bufferSize := by
  cases h with
  | straight _ _ hin => exact hin
  | wrapped _ _ upper hin _ hlt => exact (hlt.le.trans (upper.le Block.pos_le_stop)).trans hin

theorem Layout.pairwise (h : Layout bufferSize back newBlock live) : live.Pairwise Apart := by
  cases h with
  | straight chain _ _ => exact (chain.pairwise Block.pos_le_stop).imp Or.inl
  | wrapped _ _ upper _ lower hlt =>
    refine List.pairwise_append.mpr ⟨?_, ?_, fun b hb c hc => Or.inr ?_⟩
    · exact (upper.pairwise Block.pos_le_stop).imp Or.inl
    · exact (lower.pairwise Block.pos_le_stop).imp Or.inl
    · have h1 := (upper.mem Block.pos_le_stop hb).1
      have h2 := (lower.mem Block.pos_le_stop hc).2
      omega

theorem Layout.apart (h : Layout bufferSize back newBlock live) (hb : b ∈ live) (hc : c ∈ live)
    (hne : b.pos ≠ c.pos) : Apart b c :=
  h.pairwise.forall hb hc fun heq => hne (congrArg Block.pos heq)

theorem Layout.map {f : Block → Block} (hpos : ∀ b, (f b).pos = b.pos) (hsize : ∀ b, (f b).payloadSize = b.payloadSize)
    (h : Layout bufferSize back newBlock live) : Layout bufferSize back newBlock (live.map f) := by
  have hstop : ∀ b, (f b).stop = b.stop := by
    intro b
    rw [Block.stop, Block.stop, hpos, hsize]
  cases h with
  | straight chain hempty hin =>
    exact .straight (chain.map hpos hstop) (fun hnil => hempty (List.map_eq_nil_iff.mp hnil)) hin
  | wrapped hhi hlo upper hin lower hlt =>
    rw [List.map_append]
    refine .wrapped ?_ ?_ (upper.map hpos hstop) hin (lower.map hpos hstop) hlt
    · exact fun hnil => hhi (List.map_eq_nil_iff.mp hnil)
    · exact fun hnil => hlo (List.map_eq_nil_iff.mp hnil)

/-- The offsets are equal when there is no live block. -/
theorem Layout.back_eq_iff (h : Layout bufferSize back newBlock live) : back = newBlock ↔ live = [] := by
  cases h with
  | straight chain _ _ =>
    cases live with
    | nil => exact iff_of_true chain rfl
    | cons b bs =>
      refine iff_of_false ?_ (by simp)
      have h1 := chain.1
      have h2 := b.pos_lt_stop
      have h3 := (chain.2.le Block.pos_le_stop)
      omega
  | wrapped hhi _ _ _ _ hlt => exact iff_of_false (by omega) (by simp [hhi])

/-- The oldest block stands at `Back`. -/
theorem Layout.head_pos (h : Layout bufferSize back newBlock (b :: live)) : b.pos = back := by
  generalize hl : b :: live = l at h
  cases h with
  | straight chain _ _ =>
    subst hl
    exact chain.1
  | @wrapped hi lo _ hhi _ upper _ _ _ =>
    cases hi with
    | nil => exact absurd rfl hhi
    | cons c hi =>
      obtain ⟨rfl, -⟩ := List.cons.inj hl
      exact upper.1

/-- The oldest block is taken out: the next one is the oldest now. -/
theorem Layout.tail (h : Layout bufferSize back newBlock (b :: c :: live)) :
    Layout bufferSize c.pos newBlock (c :: live) := by
  generalize hl : b :: c :: live = l at h
  cases h with
  | straight chain _ hin =>
    subst hl
    obtain ⟨-, hc, chain⟩ := chain
    exact .straight ⟨rfl, chain⟩ (by simp) hin
  | @wrapped hi lo e hhi hlo upper hin lower hlt =>
    cases hi with
    | nil => exact absurd rfl hhi
    | cons b' hi =>
      obtain ⟨rfl, htail⟩ := List.cons.inj hl
      cases hi with
      | nil =>
        -- the blocks at the end of the buffer are used up
        obtain rfl : c :: live = lo := htail
        obtain ⟨hc, lower⟩ := lower
        refine .straight ⟨rfl, lower⟩ (by simp) ?_
        have := (upper.le Block.pos_le_stop)
        omega
      | cons c' hi =>
        obtain ⟨rfl, rfl⟩ := List.cons.inj htail
        obtain ⟨hb, hc, upper⟩ := upper
        have h1 := b.pos_lt_stop
        exact .wrapped (List.cons_ne_nil c hi) hlo ⟨rfl, upper⟩ hin lower (by omega)

/-- A block is put behind `NewBlock`, where there is room. -/
theorem Layout.snoc (h : Layout bufferSize back newBlock live) (hpos : b.pos = newBlock)
    (hroom : (b.stop < bufferSize ∧ newBlock ≥ back) ∨ (b.stop < back ∧ newBlock < back)) :
    Layout bufferSize back b.stop (live ++ [b]) := by
  cases h with
  | straight chain hempty hin =>
    have hle := (chain.le Block.pos_le_stop)
    refine .straight (chain.snoc hpos) (by simp) ?_
    omega
  | @wrapped hi lo e hhi hlo upper hin lower hlt =>
    rw [List.append_assoc]
    refine .wrapped hhi (by simp) upper hin (lower.snoc hpos) ?_
    omega

/-- A block is put at the start of the buffer, before `Back`. -/
theorem Layout.wrap (h : Layout bufferSize back newBlock live) (hpos : b.pos = 0) (hge : newBlock ≥ back)
    (hroom : back > b.stop) : Layout bufferSize back b.stop (live ++ [b]) := by
  cases h with
  | straight chain hempty hin =>
    refine .wrapped ?_ (by simp) chain hin ⟨hpos, rfl⟩ hroom
    rintro rfl
    have := hempty rfl
    omega
  | wrapped _ _ _ _ _ hlt => omega

end Layout

/-! ### What the blocks hold -/

/-- The header of a block and what was written to its payload are in the buffer. -/
structure Held (m : Mem) (b : Block) : Prop where
  size : load m (b.pos + 8) 8 = b.payloadSize
  length : load m (b.pos + 16) 8 = b.payloadLength
  bytes : ∀ i x, i < b.payloadSize → b.payload i = some x → m (b.pos + headerSize + i) = x

/-- Each block leads to the next one. -/
def Linked (m : Mem) : List Block → Prop
  | [] => True
  | [b] => load m b.pos 8 = INFINITE
  | b :: c :: bs => load m b.pos 8 = c.pos ∧ Linked m (c :: bs)

section Contents

variable {m m' : Mem} {b c : Block} {bs : List Block}

theorem Held.congr (h : Held m b) (hm : ∀ a, b.pos + 8 ≤ a → a < b.stop → m' a = m a) : Held m' b := by
  have hstop : b.stop = b.pos + 24 + b.payloadSize := rfl
  refine ⟨?_, ?_, ?_⟩
  · rw [← h.size]
    exact load_congr fun a h1 h2 => hm a h1 (by omega)
  · rw [← h.length]
    exact load_congr fun a h1 h2 => hm a (by omega) (by omega)
  · intro i x hi hx
    rw [← h.bytes i x hi hx]
    have : headerSize = 24 := rfl
    exact hm _ (by omega) (by omega)

theorem Linked.congr (h : Linked m bs) (hm : ∀ b ∈ bs, load m' b.pos 8 = load m b.pos 8) : Linked m' bs := by
  induction bs with
  | nil => trivial
  | cons b bs ih =>
    cases bs with
    | nil => exact (hm b (by simp)).trans h
    | cons c bs => exact ⟨(hm b (by simp)).trans h.1, ih h.2 fun d hd => hm d (by simp [hd])⟩

/-- A block is linked behind the others. -/
theorem Linked.snoc (h : Linked m bs) (hkeep : ∀ b ∈ bs.dropLast, load m' b.pos 8 = load m b.pos 8)
    (hlast : ∀ b ∈ bs.getLast?, load m' b.pos 8 = c.pos) (hc : load m' c.pos 8 = INFINITE) :
    Linked m' (bs ++ [c]) := by
  induction bs with
  | nil => exact hc
  | cons b bs ih =>
    cases bs with
    | nil => exact ⟨hlast b (by simp), hc⟩
    | cons d bs =>
      refine ⟨(hkeep b (by simp)).trans h.1, ih h.2 ?_ ?_⟩
      · exact fun x hx => hkeep x (by simp [hx])
      · exact fun x hx => hlast x (by simpa using hx)

theorem Linked.map {f : Block → Block} (hpos : ∀ b, (f b).pos = b.pos) (h : Linked m bs) : Linked m (bs.map f) := by
  induction bs with
  | nil => trivial
  | cons b bs ih =>
    cases bs with
    | nil =>
      rw [List.map_singleton, Linked, hpos]
      exact h
    | cons c bs =>
      refine ⟨?_, ih h.2⟩
      rw [hpos, hpos]
      exact h.1

/-- Following the links leads through the blocks. -/
theorem Linked.links_eq (h : Linked m (b :: bs)) : links m (bs.length + 1) b.pos = b.pos :: bs.map Block.pos := by
  induction bs generalizing b with
  | nil => rfl
  | cons c bs ih =>
    rw [List.length_cons, links, h.1, ih h.2]
    rfl

theorem Linked.last (h : Linked m bs) (hb : b ∈ bs.getLast?) : load m b.pos 8 = INFINITE := by
  induction bs with
  | nil => cases hb
  | cons c bs ih =>
    cases bs with
    | nil =>
      obtain rfl : c = b := by simpa using hb
      exact h
    | cons d bs => exact ih h.2 (by simpa using hb)

end Contents

/-! ### The invariant -/

/-- The blocks are where the offsets say, linked in order, and hold what was written to them. -/
structure Inv (s : State) : Prop where
  layout : Layout s.bufferSize s.back s.newBlock s.live
  size_lt : s.bufferSize < 2 ^ 64
  last_eq : s.last = s.live.getLast?.map Block.pos
  linked : Linked s.buffer s.live
  held : ∀ b ∈ s.live, Held s.buffer b

theorem inv_start (m : Mem) {sz : ℕ} (hsz : sz < 2 ^ 64) : Inv (start m sz) where
  layout := .straight rfl (fun _ => rfl) (Nat.zero_le _)
  size_lt := hsz
  last_eq := rfl
  linked := trivial
  held b hb := by cases hb

/-! #### `Push` -/

section Push

variable {s : State}

theorem enlargeTo32AL_eq {n : ℕ} (h : n + 7 < 2 ^ 64) : enlargeTo32AL n = (n + 7) / 8 * 8 := by
  have hmask := and_xor_mask (j := 3) h
  rw [enlargeTo32AL, Nat.mod_eq_of_lt h, Nat.mul_comm]
  simpa using hmask

/-- Where the new block goes, and how the live blocks are placed then. -/
theorem Inv.place_layout (hi : Inv s) {b : Block} {newBlock : ℕ}
    (hfit : headerSize + b.payloadSize + s.newBlock < 2 ^ 64)
    (h : place s (headerSize + b.payloadSize) = some (b.pos, newBlock)) :
    newBlock = b.stop ∧ b.pos < 2 ^ 64 ∧ Layout s.bufferSize s.back b.stop (s.live ++ [b]) := by
  have hstop : b.stop = b.pos + headerSize + b.payloadSize := rfl
  simp only [place, Nat.mod_eq_of_lt hfit] at h
  split at h
  · rename_i hroom
    obtain ⟨hpos, hnew⟩ := Prod.mk.inj (Option.some.inj h)
    have heq : headerSize + b.payloadSize + s.newBlock = b.stop := by omega
    rw [heq] at hroom
    exact ⟨by omega, by omega, hi.layout.snoc hpos.symm hroom⟩
  · split at h
    · rename_i hroom
      obtain ⟨hpos, hnew⟩ := Prod.mk.inj (Option.some.inj h)
      have heq : headerSize + b.payloadSize = b.stop := by omega
      rw [heq] at hroom
      exact ⟨by omega, by omega, hi.layout.wrap hpos.symm hroom.1 hroom.2⟩
    · cases h

theorem header_outside (m : Mem) (size_max : ℕ) {p a : ℕ} (h : a < p ∨ p + headerSize ≤ a) :
    header m p size_max a = m a := by
  have : headerSize = 24 := rfl
  rw [header, store_outside _ _ (by omega), store_outside _ _ (by omega), store_outside _ _ (by omega)]

theorem load_header (m : Mem) (p : ℕ) {size_max : ℕ} (h : size_max < 2 ^ 64) :
    load (header m p size_max) p 8 = INFINITE ∧ load (header m p size_max) (p + 8) 8 = size_max ∧
      load (header m p size_max) (p + 16) 8 = 0 := by
  refine ⟨?_, ?_, ?_⟩
  · rw [header, load_store_other _ (by omega), load_store_same]
    rfl
  · rw [header, load_store_other _ (by omega), load_store_other _ (by omega), load_store_same]
    exact Nat.mod_eq_of_lt (by simpa using h)
  · rw [header, load_store_same, Nat.zero_mod]

theorem linkLast_outside (m : Mem) (p : ℕ) {last : Option ℕ} {a : ℕ} (h : ∀ l ∈ last, a < l ∨ l + 8 ≤ a) :
    linkLast m p last a = m a := by
  cases last with
  | none => rfl
  | some l => exact store_outside _ _ (h l rfl)

theorem Inv.mem_last (hi : Inv s) {l : ℕ} (hl : l ∈ s.last) : ∃ c ∈ s.live.getLast?, c.pos = l := by
  rw [hi.last_eq] at hl
  simpa using hl

section Pushed

variable {b c : Block} {a : ℕ}

/-- The block before is linked to a new one outside the new one. -/
theorem Inv.pushed_inside (hi : Inv s) (hnew : ∀ c ∈ s.live, Apart c b) (h1 : b.pos ≤ a) (h2 : a < b.stop) :
    pushed s b.pos b.payloadSize a = header s.buffer b.pos b.payloadSize a := by
  refine linkLast_outside _ _ ?_
  intro l hl
  obtain ⟨c, hc, rfl⟩ := hi.mem_last hl
  have h3 := c.pos_lt_stop
  rcases hnew c (List.mem_of_getLast? hc) with h | h <;> omega

/-- A live block keeps all but the word that links it. -/
theorem Inv.pushed_live (hi : Inv s) (hap : Apart c b) (hc : c ∈ s.live) (h1 : c.pos + 8 ≤ a) (h2 : a < c.stop) :
    pushed s b.pos b.payloadSize a = s.buffer a := by
  have hstop : b.stop = b.pos + headerSize + b.payloadSize := rfl
  rw [pushed, linkLast_outside, header_outside]
  · rcases hap with h | h <;> omega
  · intro l hl
    obtain ⟨d, hd, rfl⟩ := hi.mem_last hl
    by_cases hne : c.pos = d.pos
    · omega
    · have h4 := d.pos_lt_stop
      rcases hi.layout.apart hc (List.mem_of_getLast? hd) hne with h | h <;> omega

/-- And a block that is not the last one keeps that word, too. -/
theorem Inv.pushed_next (hi : Inv s) (hap : Apart c b) (hc : c ∈ s.live.dropLast) :
    load (pushed s b.pos b.payloadSize) c.pos 8 = load s.buffer c.pos 8 := by
  have hstop : b.stop = b.pos + headerSize + b.payloadSize := rfl
  have h3 := c.pos_lt_stop
  refine load_congr ?_
  intro a h1 h2
  rw [pushed, linkLast_outside, header_outside]
  · rcases hap with h | h <;> omega
  · intro l hl
    obtain ⟨d, hd, rfl⟩ := hi.mem_last hl
    have hpw := hi.layout.pairwise
    rw [← List.dropLast_append_getLast? d hd] at hpw
    have h4 := d.pos_lt_stop
    rcases (List.pairwise_append.mp hpw).2.2 c hc d (by simp) with h | h <;> omega

theorem Inv.linked_pushed (hi : Inv s) (hnew : ∀ c ∈ s.live, Apart c b) (hpos : b.pos < 2 ^ 64)
    (hlt : b.payloadSize < 2 ^ 64) : Linked (pushed s b.pos b.payloadSize) (s.live ++ [b]) := by
  refine hi.linked.snoc ?_ ?_ ?_
  · exact fun c hc => hi.pushed_next (hnew c (List.mem_of_mem_dropLast hc)) hc
  · intro c hc
    have hl : s.last = some c.pos := by rw [hi.last_eq, hc]; rfl
    rw [pushed, hl, linkLast, load_store_same]
    exact Nat.mod_eq_of_lt (by simpa using hpos)
  · have h3 := b.pos_lt_stop
    rw [← (load_header s.buffer b.pos hlt).1]
    exact load_congr fun a h1 h2 => hi.pushed_inside hnew h1 (by omega)

theorem Inv.held_pushed (hi : Inv s) (hnew : ∀ c ∈ s.live, Apart c b) (hlt : b.payloadSize < 2 ^ 64)
    (hlen : b.payloadLength = 0) (hnone : b.payload = fun _ => none) :
    Held (pushed s b.pos b.payloadSize) b := by
  obtain ⟨-, hsize, hzero⟩ := load_header s.buffer b.pos hlt
  have h3 := b.pos_lt_stop
  refine ⟨?_, ?_, ?_⟩
  · refine Eq.trans ?_ hsize
    exact load_congr fun a h1 h2 => hi.pushed_inside hnew (by omega) (by omega)
  · rw [hlen, ← hzero]
    exact load_congr fun a h1 h2 => hi.pushed_inside hnew (by omega) (by omega)
  · intro i x _ hx
    rw [hnone] at hx
    cases hx

theorem inv_pushed (hi : Inv s) (hlt : b.payloadSize < 2 ^ 64) (hpos : b.pos < 2 ^ 64)
    (hlen : b.payloadLength = 0) (hnone : b.payload = fun _ => none)
    (hlay : Layout s.bufferSize s.back b.stop (s.live ++ [b])) :
    Inv ⟨pushed s b.pos b.payloadSize, s.bufferSize, s.back, b.stop, some b.pos, s.live ++ [b]⟩ := by
  have hnew : ∀ c ∈ s.live, Apart c b := fun c hc =>
    (List.pairwise_append.mp hlay.pairwise).2.2 c hc b (by simp)
  refine ⟨hlay, hi.size_lt, by simp, hi.linked_pushed hnew hpos hlt, ?_⟩
  intro c hc
  rcases List.mem_append.mp hc with hc | hc
  · exact (hi.held c hc).congr fun a h1 h2 => hi.pushed_live (hnew c hc) hc h1 h2
  · obtain rfl : c = b := by simpa using hc
    exact hi.held_pushed hnew hlt hlen hnone

end Pushed

theorem inv_push (hi : Inv s) {n : ℕ} (hfit : (n + 7) / 8 * 8 + headerSize + s.newBlock < 2 ^ 64) :
    Inv (push s n).1 := by
  have hh : headerSize = 24 := rfl
  have hsize : enlargeTo32AL n = (n + 7) / 8 * 8 := enlargeTo32AL_eq (by omega)
  have hmod : (enlargeTo32AL n + headerSize) % 2 ^ 64 = headerSize + enlargeTo32AL n := by omega
  simp only [push, hmod]
  cases hpl : place s (headerSize + enlargeTo32AL n) with
  | none => exact hi
  | some pn =>
    obtain ⟨p, newBlock⟩ := pn
    have hlt : headerSize + enlargeTo32AL n + s.newBlock < 2 ^ 64 := by omega
    obtain ⟨rfl, hpos, hlay⟩ := hi.place_layout (b := ⟨p, enlargeTo32AL n, 0, fun _ => none⟩) hlt hpl
    have hlt' : enlargeTo32AL n < 2 ^ 64 := by omega
    exact inv_pushed (b := ⟨p, enlargeTo32AL n, 0, fun _ => none⟩) hi hlt' hpos rfl rfl hlay

end Push

/-! #### The other operations -/

section Ops

variable {s : State} {b : Block}

theorem Inv.live_cons (hi : Inv s) (h : s.back ≠ s.newBlock) : ∃ b bs, s.live = b :: bs ∧ b.pos = s.back := by
  cases hl : s.live with
  | nil => exact absurd (hi.layout.back_eq_iff.mpr hl) h
  | cons b bs =>
    have hlay := hi.layout
    rw [hl] at hlay
    exact ⟨b, bs, rfl, hlay.head_pos⟩

theorem inv_pop (hi : Inv s) : Inv (pop s) := by
  rw [pop]
  split
  · rename_i hne
    obtain ⟨b, bs, hl, hb⟩ := hi.live_cons hne
    have hlay := hi.layout
    have hlink := hi.linked
    have hheld := hi.held
    have hlast := hi.last_eq
    rw [hl] at hlay hlink hheld hlast
    cases bs with
    | nil =>
      have heq : some s.back = s.last := by rw [hlast, ← hb]; rfl
      rw [if_pos heq, hl]
      exact ⟨.straight rfl (fun _ => rfl) (Nat.zero_le _), hi.size_lt, rfl, trivial, fun c hc => by cases hc⟩
    | cons c bs =>
      -- the last block is another one
      have hneq : some s.back ≠ s.last := by
        intro heq
        rw [hlast, List.getLast?_cons_cons, ← hb] at heq
        obtain ⟨d, hd, hpos⟩ := Option.map_eq_some_iff.mp heq.symm
        have hap := List.rel_of_pairwise_cons hlay.pairwise (List.mem_of_getLast? hd)
        have h1 := b.pos_lt_stop
        have h2 := d.pos_lt_stop
        rcases hap with h | h <;> omega
      have hnext : load s.buffer s.back 8 = c.pos := by rw [← hb]; exact hlink.1
      rw [if_neg hneq, hl, hnext]
      refine ⟨hlay.tail, hi.size_lt, ?_, hlink.2, fun d hd => hheld d (List.mem_cons_of_mem b hd)⟩
      rw [List.tail_cons, hlast, List.getLast?_cons_cons]
  · exact hi

/-- One block is changed, and nothing in the buffer but that block. -/
theorem inv_map (hi : Inv s) (hb : b ∈ s.live) {m : Mem} {f : Block → Block} (hpos : ∀ c, (f c).pos = c.pos)
    (hsize : ∀ c, (f c).payloadSize = c.payloadSize) (hother : ∀ c, c.pos ≠ b.pos → f c = c)
    (hmem : ∀ a, a < b.pos + 8 ∨ b.stop ≤ a → m a = s.buffer a)
    (hheld : ∀ c ∈ s.live, c.pos = b.pos → Held s.buffer c → Held m (f c)) :
    Inv { s with buffer := m, live := s.live.map f } := by
  refine ⟨hi.layout.map hpos hsize, hi.size_lt, ?_, ?_, ?_⟩
  · rw [List.getLast?_map, Option.map_map, hi.last_eq]
    congr 1
    funext c
    exact (hpos c).symm
  · refine (hi.linked.congr fun c hc => ?_).map hpos
    refine load_congr fun a h1 h2 => hmem a ?_
    by_cases hne : c.pos = b.pos
    · omega
    · have h3 := c.pos_lt_stop
      rcases hi.layout.apart hc hb hne with h | h <;> omega
  · intro c' hc'
    obtain ⟨c, hc, rfl⟩ := List.mem_map.mp hc'
    by_cases hne : c.pos = b.pos
    · exact hheld c hc hne (hi.held c hc)
    · rw [hother c hne]
      refine (hi.held c hc).congr fun a h1 h2 => hmem a ?_
      have h3 := b.pos_lt_stop
      rcases hi.layout.apart hc hb hne with h | h <;> omega

theorem inv_setBlockSize (hi : Inv s) (hb : b ∈ s.live) {finalized : ℕ} (hlt : finalized < 2 ^ 64) :
    Inv (setBlockSize s (b.pos + headerSize) finalized) := by
  have h3 := b.pos_lt_stop
  have hback : b.pos + headerSize - headerSize = b.pos := Nat.add_sub_cancel _ _
  simp only [setBlockSize, hback]
  refine inv_map hi hb ?_ ?_ ?_ ?_ ?_
  · intro c
    split <;> rfl
  · intro c
    split <;> rfl
  · exact fun c hne => if_neg hne
  · exact fun a ha => store_outside _ _ (by omega)
  · intro c _ hc hh
    rw [if_pos hc]
    refine ⟨?_, ?_, ?_⟩
    · rw [← hh.size]
      exact load_store_other _ (by simp only; omega)
    · rw [← hc, load_store_same]
      exact Nat.mod_eq_of_lt (by simpa using hlt)
    · intro i x hx hp
      rw [← hh.bytes i x hx hp]
      have : headerSize = 24 := rfl
      exact store_outside _ _ (by simp only; omega)

theorem inv_write (hi : Inv s) (hb : b ∈ s.live) {i : ℕ} (x : UInt8) (hlt : i < b.payloadSize) :
    Inv (write s (b.pos + headerSize) i x) := by
  have hstop : b.stop = b.pos + 24 + b.payloadSize := rfl
  have hh : headerSize = 24 := rfl
  have hback : b.pos + headerSize - headerSize = b.pos := Nat.add_sub_cancel _ _
  simp only [write, hback]
  refine inv_map hi hb ?_ ?_ ?_ ?_ ?_
  · intro c
    split <;> rfl
  · intro c
    split <;> rfl
  · exact fun c hne => if_neg hne
  · exact fun a ha => poke_other _ _ (by omega)
  · intro c _ hc hheld
    rw [if_pos hc]
    refine ⟨?_, ?_, ?_⟩
    · rw [← hheld.size]
      exact load_congr fun a h1 h2 => poke_other _ _ (by simp only at h1 h2; omega)
    · rw [← hheld.length]
      exact load_congr fun a h1 h2 => poke_other _ _ (by simp only at h1 h2; omega)
    · intro j y hj hy
      simp only at hj hy ⊢
      by_cases hji : j = i
      · subst hji
        rw [hc, poke_same]
        simpa using hy
      · rw [Function.update_of_ne hji] at hy
        rw [poke_other _ _ (by omega)]
        exact hheld.bytes j y hj hy

end Ops

/-! ### Runs -/

theorem inv_step {s t : State} {a : Action} (hi : Inv s) (hfit : Fits s a) (h : step s a = some t) : Inv t := by
  cases a with
  | push n =>
    obtain ⟨-, h⟩ := Option.ite_none_right_eq_some.mp h
    obtain rfl := Option.some.inj h
    exact inv_push hi hfit
  | setBlockSize pushed finalized =>
    obtain ⟨⟨⟨b, hb, rfl⟩, hlt⟩, h⟩ := Option.ite_none_right_eq_some.mp h
    obtain rfl := Option.some.inj h
    exact inv_setBlockSize hi hb hlt
  | write pushed i x =>
    obtain ⟨⟨b, hb, rfl, hlt⟩, h⟩ := Option.ite_none_right_eq_some.mp h
    obtain rfl := Option.some.inj h
    exact inv_write hi hb x hlt
  | peek =>
    obtain rfl := Option.some.inj h
    exact hi
  | pop =>
    obtain rfl := Option.some.inj h
    exact inv_pop hi

theorem reachable_inv {m : Mem} {sz : ℕ} (hsz : sz < 2 ^ 64) {s : State} (h : Reachable step Fits (start m sz) s) :
    Inv s :=
  h.invariant (inv_start m hsz) fun _ _ _ hi hfit hst => inv_step hi hfit hst

theorem Inv.links_eq {s : State} (hi : Inv s) : links s.buffer s.live.length s.back = s.live.map Block.pos := by
  have hlay := hi.layout
  have hlink := hi.linked
  cases hl : s.live with
  | nil => rfl
  | cons b bs =>
    rw [hl] at hlay hlink
    rw [← hlay.head_pos]
    exact hlink.links_eq

/-- What `Peek` returns. -/
theorem Inv.peek_eq {s : State} (hi : Inv s) :
    peek s = (s.live.head?.filter fun b => b.payloadLength > 0).map fun b => b.pos + headerSize - 8 := by
  rw [peek]
  split
  · rename_i hne
    obtain ⟨b, bs, hl, hb⟩ := hi.live_cons hne
    have hlen : load s.buffer (s.back + headerSize - 8) 8 = b.payloadLength := by
      rw [← (hi.held b (by simp [hl])).length, ← hb]
      rfl
    simp only [hlen]
    rw [hl, ← hb]
    by_cases hz : b.payloadLength > 0
    · simp [hz, Option.filter]
    · simp [hz, Option.filter]
  · rename_i heq
    have hnil := hi.layout.back_eq_iff.mp (not_not.mp heq)
    rw [hnil]
    rfl

/-- **The circular buffer.** In every run in which no `Push` makes the end of its block wrap: the live blocks lie in
the buffer and do not overlap; the links from `Back` run through them in the order in which they were
pushed and end there; `Back` and `NewBlock` are equal when there is none; `Peek` returns the oldest one if
it is finalised; and what was written to a live block, and the length it was finalised with, are still
there. -/
theorem circular_buffer_fifo (m : Mem) (sz : ℕ) (hsz : sz < 2 ^ 64) (s : State)
    (h : Reachable step Fits (start m sz) s) :
    (∀ b ∈ s.live, b.stop ≤ s.bufferSize) ∧ s.live.Pairwise Apart ∧
      links s.buffer s.live.length s.back = s.live.map Block.pos ∧
      (∀ b ∈ s.live.getLast?, load s.buffer b.pos 8 = INFINITE) ∧
      (s.back = s.newBlock ↔ s.live = []) ∧
      (peek s = (s.live.head?.filter fun b => b.payloadLength > 0).map fun b => b.pos + headerSize - 8) ∧
      ∀ b ∈ s.live, Held s.buffer b := by
  have hi := reachable_inv hsz h
  exact ⟨fun b hb => hi.layout.inside hb, hi.layout.pairwise, hi.links_eq, fun b hb => hi.linked.last hb,
    hi.layout.back_eq_iff, hi.peek_eq, hi.held⟩

/-- Blocks are pushed, written, finalised and taken out, and the last one goes to the start of the buffer. -/
def turnOver : List Action :=
  [.push 237, .write 24 0 0x31, .setBlockSize 24 10, .push 499, .setBlockSize 288 9, .push 277, .pop, .push 230,
    .write 24 0 0x32]

theorem circular_buffer_fifo_turnOver :
    ∃ s, run step (start (fun _ => 0xcd) 1024) turnOver = some s ∧ s.live.map Block.pos = [264, 0] ∧
      peek s = some 280 ∧ s.buffer 24 = 0x32 ∧ s.live.Pairwise Apart ∧
      links s.buffer s.live.length s.back = s.live.map Block.pos := by
  refine ⟨_, rfl, rfl, rfl, rfl, ?_⟩
  have h := circular_buffer_fifo (fun _ => 0xcd) 1024 (by decide) _
    (Reachable.start.of_run turnOver (by decide) rfl)
  exact ⟨h.2.1, h.2.2.1⟩

/-! ### A block that wraps -/

/-- A block whose end wraps is accepted, and does not lie in the buffer. -/
theorem push_of_not_fits {s : State} (hi : Inv s) {n : ℕ} (hsmall : Small s (.push n)) (hnot : ¬ Fits s (.push n)) :
    ∃ b ∈ (push s n).1.live, s.bufferSize < b.stop := by
  have hh : headerSize = 24 := rfl
  rw [Small] at hsmall
  rw [Fits, not_lt] at hnot
  have hsize : enlargeTo32AL n = (n + 7) / 8 * 8 := enlargeTo32AL_eq (by omega)
  have hmod : (enlargeTo32AL n + headerSize) % 2 ^ 64 = enlargeTo32AL n + headerSize := by omega
  have hlt := hi.size_lt
  have hnew := hi.layout.newBlock_le
  have hsum : (enlargeTo32AL n + headerSize + s.newBlock) % 2 ^ 64 < s.newBlock := by omega
  have hroom : ((enlargeTo32AL n + headerSize + s.newBlock) % 2 ^ 64 < s.bufferSize ∧ s.newBlock ≥ s.back) ∨
      ((enlargeTo32AL n + headerSize + s.newBlock) % 2 ^ 64 < s.back ∧ s.newBlock < s.back) := by omega
  simp only [push, hmod, place, if_pos hroom]
  refine ⟨_, List.mem_append_right _ (List.mem_singleton_self _), ?_⟩
  simp only [Block.stop]
  omega

/-- The end of the second block is `2^64 + 40`. -/
def hugePush : List Action := [.push 56, .push (2 ^ 64 - 64)]

theorem circular_buffer_fifo_fails :
    (∃ s, run step (start (fun _ => 0) 1000) hugePush = some s ∧ s.newBlock = 40 ∧
      s.live.map Block.stop = [80, 2 ^ 64 + 40]) ∧
    ¬ ∀ s, Reachable step Small (start (fun _ => 0) 1000) s → ∀ b ∈ s.live, b.stop ≤ s.bufferSize := by
  have hrun : ∃ s, run step (start (fun _ => 0) 1000) hugePush = some s ∧ s.bufferSize = 1000 ∧ s.newBlock = 40 ∧
      s.live.map Block.stop = [80, 2 ^ 64 + 40] := ⟨_, rfl, rfl, rfl, rfl⟩
  obtain ⟨s, hs, hsz, hnew, hstop⟩ := hrun
  refine ⟨⟨s, hs, hnew, hstop⟩, fun hall => ?_⟩
  have hin := hall s (Reachable.start.of_run hugePush (by decide) hs)
  have hmem : 2 ^ 64 + 40 ∈ s.live.map Block.stop := by simp [hstop]
  obtain ⟨b, hb, heq⟩ := List.mem_map.mp hmem
  have := hin b hb
  omega

end Cpcf.Rt.CircularBuffer

import Cpcf.Inet.Receive
import Cpcf.Inet.ResponseFields

/-!
How the header of a response is received.

What the connection still had of the response before comes first and is cut off. Behind the used part there is then as
much of what was received, until the next receive writes a terminator.
-/

namespace Cpcf.Inet

open Cpcf.Lib.Search RecvPool

variable {T left content D : Text} {h : ResponseHead} {b : RecvPool} {stream : List Text} {k : ℕ}

namespace ResponseHead

theorem length_bytes (h : ResponseHead) : h.bytes.length = (joinLines h.lines).length + 2 := by simp [bytes, CRLF]

theorem zero_notMem_bytes (h : ResponseHead) : 0 ∉ h.bytes := by
  unfold bytes
  rw [List.mem_append, not_or]
  exact ⟨notMem_joinLines (by decide) fun l hl => (h.isLine_of_mem l hl).2.1, by decide⟩

theorem bytes_eq (h : ResponseHead) : ∃ t, h.bytes = ascii "HTTP/" ++ t := by
  unfold bytes lines statusLine
  rw [joinLines_cons]
  exact ⟨_, by simp only [List.append_assoc]; rfl⟩

theorem length_bytes_gt (h : ResponseHead) : 16 ≤ h.bytes.length := by
  rw [length_bytes, lines, joinLines_cons]
  have hcode := h.code_ok.1
  have hhttp : (ascii "HTTP/").length = 5 := by decide
  simp only [statusLine, List.length_append, List.length_cons, hhttp, hcode]
  omega

theorem find_end (h : ResponseHead) (content : Text) :
    find (CRLF ++ CRLF) ((h.bytes ++ content).drop 5) = some (h.bytes.length - 9) := by
  have hlen := h.length_bytes_gt
  have := Inet.find_end h.isLine_of_mem (by simp [lines]) (t := content) (i := 5) (by unfold bytes at hlen; omega)
  rw [Nat.sub_sub] at this
  exact this

end ResponseHead

/-! ### What is left of the response before -/

theorem find_http (hleft : ¬ ascii "HTTP/" <:+: left) (h : ResponseHead) (content : Text) :
    find (ascii "HTTP/") (left ++ (h.bytes ++ content)) = some left.length := by
  obtain ⟨t, ht⟩ := h.bytes_eq
  have hhttp : ascii "HTTP/" = 0x48 :: ascii "TTP/" := by decide
  rw [ht, List.append_assoc]
  rw [hhttp] at hleft ⊢
  exact find_append_self (by decide) hleft

/-- What was received when the response begins to be seen. -/
def seen (left : Text) (stream : List Text) : Text := heard (left.length + 5) [] stream

/-- What stands in the buffer when `left` has been cut off. -/
def shifted (left : Text) (stream : List Text) : Text :=
  (seen left stream).drop left.length ++ (seen left stream).drop ((seen left stream).length - left.length)

/-- If the end of a header is seen in the buffer then, it is that of this header. -/
def HeadSeen (left : Text) (stream : List Text) (h : ResponseHead) : Prop :=
  left.length + 9 ≤ (seen left stream).length →
    ∀ i ∈ strstr ((shifted left stream).drop 5) (CRLF ++ CRLF), (shifted left stream).take (i + 9) = h.bytes

theorem notMem_take (h0 : 0 ∉ T) (n m : ℕ) : 0 ∉ (T.drop n).take m :=
  fun h => h0 (List.mem_of_mem_drop (List.mem_of_mem_take h))

/-- What `WaitResponse` begins with: the response is moved to the begin of the buffer. -/
theorem recvUntilRemove_http (hstream : stream.flatten = left ++ (h.bytes ++ content)) (hreceived : [] ∉ stream)
    (h0 : 0 ∉ left) (hhttp : ¬ ascii "HTTP/" <:+: left) (b : RecvPool) :
    ∃ u stream', recvUntilRemove (ascii "HTTP/") stream b.reset = some (true, ⟨(seen left stream).drop left.length,
      (seen left stream).drop ((seen left stream).length - left.length) ++ 0 :: u, 5⟩, stream') ∧
      left.length + 5 ≤ (seen left stream).length ∧
      (seen left stream).drop left.length ++ stream'.flatten = h.bytes ++ content ∧ [] ∉ stream' := by
  have hfeeds : Feeds (left ++ (h.bytes ++ content)) b.reset stream := ⟨by simpa [reset] using hstream, hreceived⟩
  have hfind := find_http hhttp h content
  have hlen := h.length_bytes_gt
  have hzero : 0 ∉ ((left ++ (h.bytes ++ content)).drop 0).take (left.length + 5) := by
    have hzero' : 0 ∉ left ++ h.bytes := by
      rw [List.mem_append, not_or]
      exact ⟨h0, h.zero_notMem_bytes⟩
    rw [List.drop_zero, ← List.append_assoc, List.take_append_of_le_length (by rw [List.length_append]; omega)]
    exact fun hmem => hzero' (List.mem_of_mem_take hmem)
  have hused : b.reset.used = 0 := rfl
  have hparsed : b.reset.parsed = 0 := rfl
  have h5 : (ascii "HTTP/").length = 5 := by decide
  have hsound : b.reset.Sound (left ++ (h.bytes ++ content)) (ascii "HTTP/") := by
    intro hs
    omega
  obtain ⟨b', stream', hrecv, hf, hp, ⟨⟨u, hu⟩, hle, hdata⟩ | ⟨-, hno, -⟩⟩ := recvUntil_eq (by decide) hsound
    hfeeds hfind (by rw [h5]; exact hzero)
  · rw [hparsed, h5, Nat.zero_add] at hp hdata
    have hseen : b'.data = seen left stream := hdata
    have hle' : left.length + 5 ≤ b'.data.length := hp ▸ hle
    have hbytes := hf.bytes
    rw [hseen] at hle' hbytes
    refine ⟨u, stream', ?_, hle', ?_, hf.received⟩
    · unfold recvUntilRemove
      rw [hrecv, hparsed, Nat.zero_add]
      have hif : 0 + left.length ≤ b'.used := by
        unfold used
        rw [hseen]
        omega
      have hcut : b'.remove 0 left.length = some ⟨(seen left stream).drop left.length,
          (seen left stream).drop ((seen left stream).length - left.length) ++ 0 :: u, left.length + 5⟩ := by
        rw [remove, if_pos hif, used, hseen, hu, hp, List.take_zero, List.nil_append, Nat.zero_add]
      simp only [hcut, Option.map_some, Nat.add_sub_cancel_left]
    · have hd := congrArg (List.drop left.length) hbytes
      rw [List.drop_left, List.drop_append_of_le_length (by omega)] at hd
      exact hd
  · omega

theorem recvUntil_end (hstream : stream.flatten = left ++ (h.bytes ++ content)) (hreceived : [] ∉ stream) (h0 : 0 ∉ left)
    (hhttp : ¬ ascii "HTTP/" <:+: left) (hend : HeadSeen left stream h) (b : RecvPool) :
    ∃ b₁ s₁ b₂ s₂, recvUntilRemove (ascii "HTTP/") stream b.reset = some (true, b₁, s₁) ∧
      recvUntil (CRLF ++ CRLF) s₁ b₁ = (some (h.bytes.length - 4), b₂, s₂) ∧ Feeds (h.bytes ++ content) b₂ s₂ ∧
      b₂.parsed = h.bytes.length ∧ b₂.cells.take h.bytes.length = h.bytes ∧
      (b₂.Terminated ∧ b₂.parsed ≤ b₂.used ∨
        b₂.data = (seen left stream).drop left.length ∧
          ∃ u, b₂.behind = (seen left stream).drop ((seen left stream).length - left.length) ++ 0 :: u) := by
  obtain ⟨u, s₁, hrecv, hle, hbytes, hs₁⟩ := recvUntilRemove_http hstream hreceived h0 hhttp b
  have hlen := h.length_bytes_gt
  have h4 : (CRLF ++ CRLF).length = 4 := rfl
  set b₁ : RecvPool := ⟨(seen left stream).drop left.length,
    (seen left stream).drop ((seen left stream).length - left.length) ++ 0 :: u, 5⟩ with hb₁
  have hparsed : b₁.parsed = 5 := rfl
  have hused : b₁.used = (seen left stream).length - left.length := List.length_drop
  have hfeeds : Feeds (h.bytes ++ content) b₁ s₁ := ⟨hbytes, hs₁⟩
  have hcells : b₁.cells = shifted left stream ++ 0 :: u := by simp [hb₁, cells, shifted]
  have hshift : 5 ≤ (shifted left stream).length := by
    unfold shifted
    rw [List.length_append, List.length_drop]
    omega
  have hview : strstr (b₁.cells.drop 5) (CRLF ++ CRLF) = strstr ((shifted left stream).drop 5) (CRLF ++ CRLF) := by
    rw [hcells, List.drop_append_of_le_length hshift, strstr, cstr_append_zero_cons]
    rfl
  -- what is taken for the header is the header
  have htake : 5 + 4 ≤ b₁.used → ∀ i, strstr (b₁.cells.drop 5) (CRLF ++ CRLF) = some i →
      b₁.cells.take (i + 9) = h.bytes := by
    intro hu9 i hi
    rw [hview] at hi
    have hi4 := length_le_of_strstr hi (by decide)
    have hi5 : i + 9 ≤ (shifted left stream).length := by
      have := (List.takeWhile_prefix (· ≠ 0) (l := (shifted left stream).drop 5)).length_le
      rw [List.length_drop] at this
      unfold cstr at hi4
      omega
    rw [hcells, List.take_append_of_le_length hi5]
    exact hend (by omega) i hi
  have hsound : b₁.Sound (h.bytes ++ content) (CRLF ++ CRLF) := by
    intro hu9 i hi
    rw [h4, show b₁.parsed + i + 4 = i + 9 by omega, htake hu9 i hi]
    exact List.prefix_append _ _
  have hzero : 0 ∉ ((h.bytes ++ content).drop b₁.parsed).take (h.bytes.length - 9 + (CRLF ++ CRLF).length) := by
    rw [List.drop_append_of_le_length (show 5 ≤ h.bytes.length by omega), List.take_append_of_le_length]
    · exact notMem_take h.zero_notMem_bytes _ _
    · rw [List.length_drop, h4]
      omega
  obtain ⟨b₂, s₂, hr, hf, hp, hcase⟩ := recvUntil_eq (by decide) hsound hfeeds (h.find_end content) hzero
  have hk : b₁.parsed + (h.bytes.length - 9) = h.bytes.length - 4 := by omega
  rw [hk] at hr
  rw [hk, h4, show h.bytes.length - 4 + 4 = h.bytes.length by omega] at hp
  refine ⟨b₁, s₁, b₂, s₂, hrecv, hr, hf, hp, ?_, ?_⟩
  · rcases hcase with ⟨-, hle', -⟩ | ⟨rfl, hu9, hstr⟩
    · rw [hp] at hle'
      rw [cells_take hle']
      obtain ⟨t, ht⟩ := hf.received_data
      have := congrArg (List.take h.bytes.length) ht
      rwa [List.take_left, List.take_append_of_le_length hle'] at this
    · have := htake hu9 _ hstr
      rwa [show h.bytes.length - 9 + 9 = h.bytes.length by omega] at this
  · rcases hcase with ⟨ht, hle', -⟩ | ⟨rfl, -, -⟩
    · exact .inl ⟨ht, hle'⟩
    · exact .inr ⟨rfl, u, rfl⟩

end Cpcf.Inet

import Cpcf.Inet.HttpSession

/-!
What is found in a buffer that is still being filled.

The bytes that were received and those to come are one text. A search that finds nothing goes on where the token could
begin, and so the token is found where it stands in the whole text. Only the first search sees what stands behind the
used part, since a receive writes a terminator there.
-/

namespace Cpcf.Inet

open Cpcf.Lib.Search

/-- The text comes through the buffer and the receives that are left. -/
structure Feeds (T : Text) (b : RecvPool) (stream : List Text) : Prop where
  bytes : b.data ++ stream.flatten = T
  received : [] ∉ stream

/-- What has been received when there are so many bytes. -/
def heard (n : ℕ) : Text → List Text → Text
  | data, [] => data
  | data, bytes :: stream => if n ≤ data.length then data else heard n (data ++ bytes) stream

namespace RecvPool

/-- The terminator stands behind the used part. -/
def Terminated (b : RecvPool) : Prop := ∃ u, b.behind = 0 :: u

/-- What the next search finds stands in the text. -/
def Sound (T end_token : Text) (b : RecvPool) : Prop := b.parsed + end_token.length ≤ b.used →
  ∀ i, strstr (b.cells.drop b.parsed) end_token = some i → b.cells.take (b.parsed + i + end_token.length) <+: T

variable {T tok bytes : Text} {b : RecvPool} {stream : List Text} {k n p : ℕ}

theorem cells_drop (h : p ≤ b.used) : b.cells.drop p = b.data.drop p ++ b.behind := List.drop_append_of_le_length h

theorem cells_take (h : p ≤ b.used) : b.cells.take p = b.data.take p := List.take_append_of_le_length h

theorem length_le_of_strstr {s : Text} (h : strstr s tok = some k) (htok : tok ≠ []) : k + tok.length ≤ (cstr s).length := by
  have hlen := (find_eq_some_iff.mp h).2.1.length_le
  have hpos := List.length_pos_iff.mpr htok
  rw [List.length_drop] at hlen
  omega

theorem Terminated.cstr_of_drop (h : b.Terminated) (hp : p ≤ b.used) : cstr (b.cells.drop p) <+: b.data.drop p := by
  obtain ⟨u, hu⟩ := h
  rw [cells_drop hp, hu]
  by_cases h0 : 0 ∈ b.data.drop p
  · rw [cstr_append_of_mem h0]
    exact List.takeWhile_prefix _
  · rw [cstr_append_zero h0]

theorem Terminated.le_used (h : b.Terminated) (hp : p ≤ b.used) (htok : tok ≠ [])
    (hk : strstr (b.cells.drop p) tok = some k) : p + k + tok.length ≤ b.used := by
  have h1 := length_le_of_strstr hk htok
  have h2 := (h.cstr_of_drop hp).length_le
  rw [List.length_drop] at h2
  unfold used at hp ⊢
  omega

/-- Behind a terminator nothing is seen. -/
theorem Terminated.sound (h : b.Terminated) (htok : tok ≠ []) (hT : b.data <+: T) : b.Sound T tok := by
  intro hused i hi
  have hle := h.le_used (by omega) htok hi
  rw [cells_take hle]
  exact (List.take_prefix _ _).trans hT

/-! ### One search -/

/-- It finds the token where it stands, or goes on in front of it. -/
theorem search_cases (htok : tok ≠ []) (hT : b.data <+: T) (hfind : find tok (T.drop b.parsed) = some k)
    (h0 : 0 ∉ (T.drop b.parsed).take (k + tok.length)) (hs : b.Sound T tok) :
    (b.search tok = (some (b.parsed + k), { b with parsed := b.parsed + k + tok.length }) ∧
      b.parsed + tok.length ≤ b.used ∧ strstr (b.cells.drop b.parsed) tok = some k) ∨
    ∃ p, b.search tok = (none, { b with parsed := p }) ∧ b.used < b.parsed + k + tok.length ∧
      b.parsed ≤ p ∧ p ≤ b.parsed + k := by
  have hpos := List.length_pos_iff.mpr htok
  by_cases hused : b.parsed + tok.length ≤ b.used
  · have hif : (tok.length : ℤ) ≤ (b.used : ℤ) - b.parsed := by omega
    cases hstr : strstr (b.cells.drop b.parsed) tok with
    | some i =>
      left
      -- the first occurrence in what is seen is the first one in the text
      obtain ⟨t, ht⟩ := hs hused i hstr
      obtain ⟨-, hpre, hmin⟩ := find_eq_some_iff.mp hstr
      have hik : i = k := by
        have hfirst : find tok ((b.cells.take (b.parsed + i + tok.length)).drop b.parsed) = some i := by
          rw [List.drop_take, show b.parsed + i + tok.length - b.parsed = i + tok.length by omega]
          obtain ⟨v, hv⟩ : cstr (b.cells.drop b.parsed) <+: b.cells.drop b.parsed := List.takeWhile_prefix _
          have hlen := length_le_of_strstr hstr htok
          rw [← hv, List.take_append_of_le_length hlen]
          refine find_eq_some_iff.mpr ⟨?_, ?_, ?_⟩
          · rw [List.length_take]
            omega
          · rw [List.drop_take, Nat.add_sub_cancel_left]
            exact List.prefix_take_iff.mpr ⟨hpre, le_rfl⟩
          · intro j hj hj'
            refine hmin j hj (hj'.trans ?_)
            rw [List.drop_take]
            exact List.take_prefix _ _
        have hlen : b.parsed ≤ (b.cells.take (b.parsed + i + tok.length)).length := by
          have hcells : b.used ≤ b.cells.length := by simp [cells, used]
          rw [List.length_take]
          omega
        rw [← ht, List.drop_append_of_le_length hlen, find_append_of_some hfirst] at hfind
        exact Option.some.inj hfind
      subst hik
      refine ⟨?_, hused, rfl⟩
      rw [search, if_pos hif, hstr]
    | none =>
      right
      have hsearch : b.search tok = (none, { b with parsed := b.used - tok.length + 1 }) := by
        rw [search, if_pos hif, hstr]
      have hlt : b.used < b.parsed + k + tok.length := by
        by_contra hle
        -- the token would be in what is seen
        refine find_eq_none_iff.mp hstr ?_
        obtain ⟨t, rfl⟩ := hT
        have hdata : (b.data.drop b.parsed).take (k + tok.length) = ((b.data ++ t).drop b.parsed).take (k + tok.length) := by
          rw [List.drop_append_of_le_length (by unfold used at hused; omega),
            List.take_append_of_le_length (by rw [List.length_drop]; unfold used at hle; omega)]
        have hin : tok <:+: (b.data.drop b.parsed).take (k + tok.length) := by
          have hpre := (find_eq_some_iff.mp hfind).2.1
          rw [hdata]
          refine List.IsInfix.trans (List.IsPrefix.isInfix ?_) (List.drop_suffix k _).isInfix
          rw [List.drop_take, Nat.add_sub_cancel_left]
          exact List.prefix_take_iff.mpr ⟨hpre, le_rfl⟩
        refine hin.trans (List.IsPrefix.isInfix ?_)
        have hcells : b.cells.drop b.parsed = (b.data.drop b.parsed).take (k + tok.length) ++
            ((b.data.drop b.parsed).drop (k + tok.length) ++ b.behind) := by
          rw [cells_drop (by omega), ← List.append_assoc, List.take_append_drop]
        rw [hcells, cstr_append (hdata ▸ h0)]
        exact List.prefix_append _ _
      exact ⟨_, hsearch, hlt, by omega, by omega⟩
  · right
    refine ⟨b.parsed, ?_, by omega, le_rfl, by omega⟩
    rw [search, if_neg (by omega)]

end RecvPool

/-! ### Receiving up to a token -/

open RecvPool

variable {T tok bytes : Text} {b : RecvPool} {stream : List Text} {k n : ℕ}

theorem Feeds.received_data (h : Feeds T b stream) : b.data <+: T := ⟨_, h.bytes⟩

theorem Feeds.ne_nil (h : Feeds T b (bytes :: stream)) : bytes ≠ [] := fun hnil => h.received (hnil ▸ List.mem_cons_self)

theorem Feeds.recv (h : Feeds T b (bytes :: stream)) : Feeds T (b.recv bytes) stream := by
  refine ⟨?_, fun hmem => h.received (List.mem_cons_of_mem _ hmem)⟩
  rw [← h.bytes, List.flatten_cons, ← List.append_assoc]
  rfl

theorem Feeds.recvRaw (h : Feeds T b (bytes :: stream)) : Feeds T (b.recvRaw bytes) stream := by
  refine ⟨?_, fun hmem => h.received (List.mem_cons_of_mem _ hmem)⟩
  rw [← h.bytes, List.flatten_cons, ← List.append_assoc]
  rfl

theorem Feeds.parsed (h : Feeds T b stream) (p : ℕ) : Feeds T { b with parsed := p } stream := ⟨h.bytes, h.received⟩

theorem terminated_recv (b : RecvPool) (bytes : Text) : (b.recv bytes).Terminated := ⟨_, rfl⟩

/-- The whole token is in the text. -/
theorem le_length_of_find (htok : tok ≠ []) (hfind : find tok (T.drop n) = some k) : n + k + tok.length ≤ T.length := by
  have hlen := (find_eq_some_iff.mp hfind).2.1.length_le
  have hpos := List.length_pos_iff.mpr htok
  simp only [List.length_drop] at hlen
  omega

/-- The place that a search goes on from has the token behind it as well. -/
theorem find_from {p : ℕ} (hfind : find tok (T.drop n) = some k) (h0 : 0 ∉ (T.drop n).take (k + tok.length)) (hn : n ≤ p)
    (hp : p ≤ n + k) : find tok (T.drop p) = some (n + k - p) ∧ 0 ∉ (T.drop p).take (n + k - p + tok.length) := by
  obtain ⟨j, rfl⟩ := Nat.exists_eq_add_of_le hn
  have hj : n + k - (n + j) = k - j := by omega
  rw [hj, ← List.drop_drop]
  refine ⟨find_drop hfind (by omega), fun h => h0 ?_⟩
  rw [show k - j + tok.length = k + tok.length - j by omega, ← List.drop_take] at h
  exact List.mem_of_mem_drop h

theorem heard_of_le (h : n ≤ T.length) : heard n T stream = T := by
  cases stream with
  | nil => rfl
  | cons bytes stream => rw [heard, if_pos h]

theorem heard_cons (h : T.length < n) : heard n T (bytes :: stream) = heard n (T ++ bytes) stream := by
  rw [heard, if_neg (Nat.not_le.mpr h)]

theorem recvUntil_of_terminated (htok : tok ≠ []) (hb : b.Terminated) (h : Feeds T b stream)
    (hfind : find tok (T.drop b.parsed) = some k) (h0 : 0 ∉ (T.drop b.parsed).take (k + tok.length)) :
    ∃ b' stream', recvUntil tok stream b = (some (b.parsed + k), b', stream') ∧ Feeds T b' stream' ∧ b'.Terminated ∧
      b'.parsed = b.parsed + k + tok.length ∧ b'.parsed ≤ b'.used ∧
      b'.data = heard (b.parsed + k + tok.length) b.data stream := by
  induction stream generalizing b k with
  | nil =>
    rcases search_cases htok h.received_data hfind h0 (hb.sound htok h.received_data) with ⟨hs, hused, hstr⟩ | ⟨p, -, hlt, -, -⟩
    · refine ⟨{ b with parsed := b.parsed + k + tok.length }, [], ?_, h.parsed _, hb, rfl, ?_, ?_⟩
      · rw [recvUntil, hs]
      · exact hb.le_used (by omega) htok hstr
      · exact (heard_of_le (hb.le_used (by omega) htok hstr)).symm
    · have hlen := le_length_of_find htok hfind
      rw [← h.bytes, List.flatten_nil, List.append_nil] at hlen
      exact absurd hlt (Nat.not_lt.mpr hlen)
  | cons bytes stream ih =>
    rcases search_cases htok h.received_data hfind h0 (hb.sound htok h.received_data) with ⟨hs, hused, hstr⟩ | ⟨p, hs, hlt, hp, hp'⟩
    · refine ⟨{ b with parsed := b.parsed + k + tok.length }, bytes :: stream, ?_, h.parsed _, hb, rfl, ?_, ?_⟩
      · rw [recvUntil, hs]
      · exact hb.le_used (by omega) htok hstr
      · exact (heard_of_le (hb.le_used (by omega) htok hstr)).symm
    · obtain ⟨hfind', h0'⟩ := find_from hfind h0 hp hp'
      obtain ⟨b', stream', hr, hf, ht, hparsed, hle, hheard⟩ := ih (terminated_recv _ _) (h.parsed p).recv hfind' h0'
      have hpk : p + (b.parsed + k - p) = b.parsed + k := by omega
      have hrecv : (({ b with parsed := p } : RecvPool).recv bytes).parsed = p := rfl
      rw [hrecv, hpk] at hr hparsed hheard
      refine ⟨b', stream', ?_, hf, ht, hparsed, hle, ?_⟩
      · rw [recvUntil, hs]
        simp only [if_neg h.ne_nil, hr]
      · rw [hheard, heard_cons hlt]
        rfl

/-- **The token is found where the text has it**, at once or after a receive. -/
theorem recvUntil_eq (htok : tok ≠ []) (hs : b.Sound T tok) (h : Feeds T b stream)
    (hfind : find tok (T.drop b.parsed) = some k) (h0 : 0 ∉ (T.drop b.parsed).take (k + tok.length)) :
    ∃ b' stream', recvUntil tok stream b = (some (b.parsed + k), b', stream') ∧ Feeds T b' stream' ∧
      b'.parsed = b.parsed + k + tok.length ∧
      (b'.Terminated ∧ b'.parsed ≤ b'.used ∧ b'.data = heard (b.parsed + k + tok.length) b.data stream ∨
        b' = { b with parsed := b.parsed + k + tok.length } ∧ b.parsed + tok.length ≤ b.used ∧
          strstr (b.cells.drop b.parsed) tok = some k) := by
  rcases search_cases htok h.received_data hfind h0 hs with ⟨hsearch, hused, hstr⟩ | ⟨p, hsearch, hlt, hp, hp'⟩
  · refine ⟨_, stream, ?_, h.parsed _, rfl, .inr ⟨rfl, hused, hstr⟩⟩
    cases stream <;> rw [recvUntil, hsearch]
  · cases stream with
    | nil =>
      have hlen := le_length_of_find htok hfind
      rw [← h.bytes, List.flatten_nil, List.append_nil] at hlen
      exact absurd hlt (Nat.not_lt.mpr hlen)
    | cons bytes stream =>
      obtain ⟨hfind', h0'⟩ := find_from hfind h0 hp hp'
      obtain ⟨b', stream', hr, hf, ht, hparsed, hle, hheard⟩ :=
        recvUntil_of_terminated htok (terminated_recv _ _) (h.parsed p).recv hfind' h0'
      have hpk : p + (b.parsed + k - p) = b.parsed + k := by omega
      have hrecv : (({ b with parsed := p } : RecvPool).recv bytes).parsed = p := rfl
      rw [hrecv, hpk] at hr hparsed hheard
      refine ⟨b', stream', ?_, hf, hparsed, .inl ⟨ht, hle, ?_⟩⟩
      · rw [recvUntil, hsearch]
        simp only [if_neg h.ne_nil, hr]
      · rw [hheard, heard_cons hlt]
        rfl

/-! ### Receiving a number of bytes -/

theorem recvUpTo_eq (h : Feeds T b stream) (hn : n ≤ T.length) :
    ∃ b' stream', recvUpTo n stream b = (true, b', stream') ∧ Feeds T b' stream' ∧ b'.Terminated ∧ b'.parsed = n ∧
      n ≤ b'.used := by
  induction stream generalizing b with
  | nil =>
    have hlen : n ≤ b.used := by
      rw [← h.bytes, List.flatten_nil, List.append_nil] at hn
      exact hn
    refine ⟨{ b.terminate with parsed := n }, [], ?_, ⟨h.bytes, h.received⟩, ⟨_, rfl⟩, rfl, hlen⟩
    rw [recvUpTo, if_neg (by omega)]
  | cons bytes stream ih =>
    by_cases hused : b.used < n
    · obtain ⟨b', stream', hr, hrest⟩ := ih (h.recvRaw.parsed (min (b.recvRaw bytes).used n))
      refine ⟨b', stream', ?_, hrest⟩
      rw [recvUpTo, if_pos hused]
      simp only [if_neg h.ne_nil, hr]
    · refine ⟨{ b.terminate with parsed := n }, bytes :: stream, ?_, ⟨h.bytes, h.received⟩, ⟨_, rfl⟩, rfl, ?_⟩
      · rw [recvUpTo, if_neg hused]
      · exact Nat.not_lt.mp hused

end Cpcf.Inet

import Cpcf.Os.FileZip

/-!
`FindFile` of `os/file_zip.cpp`, with `rt::LowerBound` and `rt::BinarySearch`.

Both ways to search come to the first entry of the name, whether it was removed or not. In the sorted list a removed one
is then refused, in the other it is returned.
-/

namespace Cpcf.Rt

/-! ### `LowerBound` and `BinarySearch` -/

/-- The loop of `LowerBound` between `L` and `ret`. The first argument bounds the number of turns. -/
def lowerBoundLoop (below : ℕ → Bool) : ℕ → ℕ → ℕ → ℕ
  | 0, _, ret => ret
  | n + 1, L, ret =>
    if L + 1 < ret then
      let mid := (L + ret) / 2
      if below mid then lowerBoundLoop below n mid ret else lowerBoundLoop below n L mid
    else ret

/-- `LowerBound(arr, len, key)`, where `below i` is `arr[i] < key`. -/
def lowerBound (below : ℕ → Bool) (len : ℕ) : ℕ :=
  if len = 0 ∨ below 0 = false then 0
  else if below (len - 1) = false then lowerBoundLoop below len 0 (len - 1)
  else len

/-- `BinarySearch(arr, len, key)`, where `above i` is `key < arr[i]`. -/
def binarySearch (below above : ℕ → Bool) (len : ℕ) : ℕ :=
  let r := lowerBound below len
  if r < len ∧ above r = true then len else r

section

variable {below : ℕ → Bool} {len : ℕ}

/-- Between an element below the key and one that is not, the loop comes to two neighbours. -/
theorem lowerBoundLoop_spec {n L ret : ℕ} (hL : below L = true) (hret : below ret = false) (hlt : L < ret)
    (hn : ret ≤ L + n) : below (lowerBoundLoop below n L ret) = false ∧ lowerBoundLoop below n L ret ≤ ret ∧
      ∃ i, below i = true ∧ i + 1 = lowerBoundLoop below n L ret := by
  induction n generalizing L ret with
  | zero => omega
  | succ n ih =>
    rw [lowerBoundLoop]
    by_cases hmore : L + 1 < ret
    · rw [if_pos hmore]
      dsimp only
      by_cases hmid : below ((L + ret) / 2) = true
      · rw [if_pos hmid]
        exact ih hmid hret (by omega) (by omega)
      · rw [if_neg hmid]
        obtain ⟨h1, h2, h3⟩ := ih hL (Bool.not_eq_true _ ▸ hmid) (by omega) (by omega)
        exact ⟨h1, by omega, h3⟩
    · rw [if_neg hmore]
      exact ⟨hret, le_rfl, L, hL, by omega⟩

/-- `LowerBound` comes to the first element that is not below the key. -/
theorem lowerBound_spec (hmono : ∀ i j, i ≤ j → j < len → below j = true → below i = true) :
    lowerBound below len ≤ len ∧ (∀ i < lowerBound below len, below i = true) ∧
      (lowerBound below len < len → below (lowerBound below len) = false) := by
  unfold lowerBound
  split
  · next h =>
    refine ⟨Nat.zero_le _, fun i hi => absurd hi (Nat.not_lt_zero i), fun hpos => ?_⟩
    exact h.resolve_left (by omega)
  next h =>
  obtain ⟨hlen, h0⟩ := not_or.mp h
  split
  · next hlast =>
    have hfirst : below 0 = true := by simpa using h0
    have hpos : 0 < len - 1 := by
      by_contra hone
      rw [show len - 1 = 0 by omega, hfirst] at hlast
      exact absurd hlast (by decide)
    obtain ⟨h1, h2, i, hi, hnext⟩ := lowerBoundLoop_spec (n := len) hfirst hlast hpos (by omega)
    exact ⟨by omega, fun j hj => hmono j i (by omega) (by omega) hi, fun _ => h1⟩
  · next hlast =>
    have hall : below (len - 1) = true := by simpa using hlast
    exact ⟨le_rfl, fun i hi => hmono i (len - 1) (by omega) (by omega) hall, fun hlt => absurd hlt (lt_irrefl _)⟩

end

end Cpcf.Rt

namespace Cpcf.Os.Zip

open Cpcf.Rt

/-! ### The code -/

/-- The list of the entries, with the flag that it is sorted. The flag is true for a sorted list only. -/
structure Listing where
  fileEntries : List FileEntry
  listSorted : Bool
  sorted : listSorted = true → fileEntries.Pairwise fun e f => ¬ f.fileName.1 < e.fileName.1

/-- `FindFile(pathname)`. -/
def findFile (z : Listing) (pathname : List UInt8) : ℤ :=
  let es := z.fileEntries
  if es.length = 0 then -1
  else if z.listSorted then
    let idx := binarySearch (fun i => es[i]?.any fun e => e.fileName.1 < pathname)
      (fun i => es[i]?.any fun e => pathname < e.fileName.1) es.length
    if es[idx]?.any fun e => e.signature ≠ 0 then idx else -1
  else if es.findIdx (fun e => e.fileName.1 = pathname) < es.length then
    es.findIdx fun e => e.fileName.1 = pathname
  else -1

/-- After `ReindexAllEntries` of a list that is not sorted. -/
def Listing.reindexAllEntries (es : List FileEntry) : Listing where
  fileEntries := Zip.reindexAllEntries es
  listSorted := true
  sorted _ := by
    have h : (Zip.reindexAllEntries es).Pairwise fun e f => decide (¬ f.fileName.1 < e.fileName.1) = true := by
      refine List.pairwise_mergeSort ?_ ?_ es
      · intro e f g hef hfg
        rw [decide_eq_true_eq, List.not_lt] at *
        exact List.le_trans hef hfg
      · intro e f
        rw [Bool.or_eq_true, decide_eq_true_eq, decide_eq_true_eq, List.not_lt, List.not_lt]
        exact List.le_total _ _
    exact h.imp fun h => of_decide_eq_true h

/-- After an entry is appended. -/
def Listing.append (z : Listing) (e : FileEntry) : Listing := ⟨z.fileEntries ++ [e], false, fun h => absurd h (by decide)⟩

/-- The names stay what they are. -/
theorem fileName_modify_remove (es : List FileEntry) (idx : ℕ) {i : ℕ} (hi : i < (es.modify idx FileEntry.remove).length)
    (hi' : i < es.length) : (es.modify idx FileEntry.remove)[i].fileName = es[i].fileName := by
  rw [List.getElem_modify]
  split <;> rfl

/-- After `RemoveFile`. -/
def Listing.removeFile (z : Listing) (idx : ℕ) : Listing where
  fileEntries := z.fileEntries.modify idx FileEntry.remove
  listSorted := z.listSorted
  sorted h := by
    refine List.pairwise_iff_getElem.mpr fun i j hi hj hij => ?_
    have hlen : (z.fileEntries.modify idx FileEntry.remove).length = z.fileEntries.length := List.length_modify _ _ _
    rw [fileName_modify_remove _ _ hi (hlen ▸ hi), fileName_modify_remove _ _ hj (hlen ▸ hj)]
    exact List.pairwise_iff_getElem.mp (z.sorted h) i j _ _ hij

/-! ### The first entry of a name -/

section

variable {es : List FileEntry} {pathname : List UInt8}

/-- In a sorted list `BinarySearch` comes to the first entry of the name. -/
theorem binarySearch_eq (hsorted : es.Pairwise fun e f => ¬ f.fileName.1 < e.fileName.1) (pathname : List UInt8) :
    binarySearch (fun i => es[i]?.any fun e => e.fileName.1 < pathname)
      (fun i => es[i]?.any fun e => pathname < e.fileName.1) es.length =
        es.findIdx fun e => e.fileName.1 = pathname := by
  have hle : ∀ i j (hj : j < es.length) (hij : i ≤ j), es[i].fileName.1 ≤ es[j].fileName.1 := by
    intro i j hj hij
    rcases Nat.lt_or_eq_of_le hij with hlt | rfl
    · exact List.not_lt.mp (List.pairwise_iff_getElem.mp hsorted i j (by omega) hj hlt)
    · exact List.le_refl _
  have hget : ∀ i (hi : i < es.length) (p : FileEntry → Bool), es[i]?.any p = p es[i] := by
    intro i hi p
    rw [List.getElem?_eq_getElem hi, Option.any_some]
  have hmono : ∀ i j, i ≤ j → j < es.length → (es[j]?.any fun e => decide (e.fileName.1 < pathname)) = true →
      (es[i]?.any fun e => decide (e.fileName.1 < pathname)) = true := by
    intro i j hij hj hbelow
    rw [hget j hj, decide_eq_true_eq] at hbelow
    rw [hget i (by omega), decide_eq_true_eq]
    exact Std.lt_of_le_of_lt (hle i j hj hij) hbelow
  obtain ⟨hlen, hfront, hstop⟩ := lowerBound_spec hmono
  unfold binarySearch
  dsimp only
  generalize lowerBound (fun i => es[i]?.any fun e => decide (e.fileName.1 < pathname)) es.length = r at *
  have hbefore : ∀ i (hi : i < es.length), i < r → es[i].fileName.1 ≠ pathname := by
    intro i hi hir heq
    have hlt := hfront i hir
    rw [hget i hi, decide_eq_true_eq, heq] at hlt
    exact List.lt_irrefl _ hlt
  split
  · next h =>
    obtain ⟨hr, habove⟩ := h
    rw [hget r hr, decide_eq_true_eq] at habove
    refine (List.findIdx_eq_length.mpr fun e he => ?_).symm
    obtain ⟨i, hi, rfl⟩ := List.getElem_of_mem he
    refine decide_eq_false fun heq => ?_
    rcases Nat.lt_or_ge i r with hlt | hge
    · exact hbefore i hi hlt heq
    · have := Std.lt_of_lt_of_le habove (hle r i hi hge)
      rw [heq] at this
      exact List.lt_irrefl _ this
  · next h =>
    rcases Nat.lt_or_eq_of_le hlen with hr | rfl
    · have habove : ¬ pathname < es[r].fileName.1 := by
        intro hlt
        exact h ⟨hr, by rw [hget r hr, decide_eq_true hlt]⟩
      have hbelow := hstop hr
      rw [hget r hr, decide_eq_false_iff_not] at hbelow
      have heq := List.le_antisymm (List.not_lt.mp habove) (List.not_lt.mp hbelow)
      exact ((List.findIdx_eq hr).mpr ⟨decide_eq_true heq, fun j hj => decide_eq_false (hbefore j _ hj)⟩).symm
    · refine (List.findIdx_eq_length.mpr fun e he => ?_).symm
      obtain ⟨i, hi, rfl⟩ := List.getElem_of_mem he
      exact decide_eq_false (hbefore i hi hi)

end

/-- No live entry has the name. -/
def NoLive (z : Listing) (pathname : List UInt8) : Prop :=
  ∀ e ∈ z.fileEntries, e.signature ≠ 0 → e.fileName.1 ≠ pathname

/-- The index of a live entry of the name, or `-1` where there is none. -/
def Finds (z : Listing) (pathname : List UInt8) (r : ℤ) : Prop :=
  (∃ (i : ℕ) (e : FileEntry), r = i ∧ z.fileEntries[i]? = some e ∧ e.signature ≠ 0 ∧ e.fileName.1 = pathname) ∨
    r = -1 ∧ NoLive z pathname

/-- The first entry of the name, where there is one, is live. -/
def FirstLive (z : Listing) (pathname : List UInt8) : Prop :=
  ∀ e ∈ z.fileEntries.find? fun e => e.fileName.1 = pathname, e.signature ≠ 0

/-- Where no entry has the name, `-1` is returned. -/
theorem findFile_of_none {z : Listing} {pathname : List UInt8} (h : ∀ e ∈ z.fileEntries, e.fileName.1 ≠ pathname) :
    findFile z pathname = -1 := by
  have hidx : z.fileEntries.findIdx (fun e => e.fileName.1 = pathname) = z.fileEntries.length :=
    List.findIdx_eq_length.mpr fun e he => decide_eq_false (h e he)
  unfold findFile
  dsimp only
  split
  · rfl
  split
  · next hsorted =>
    rw [binarySearch_eq (z.sorted hsorted), hidx, List.getElem?_eq_none le_rfl]
    rfl
  · rw [hidx, if_neg (lt_irrefl _)]

/-- Where the first entry of the name is at `i`, it is returned, but for a removed one of a sorted list. -/
theorem findFile_of_first {z : Listing} {pathname : List UInt8} {i : ℕ} (hi : i < z.fileEntries.length)
    (hidx : z.fileEntries.findIdx (fun e => e.fileName.1 = pathname) = i) :
    findFile z pathname = if z.listSorted = true ∧ z.fileEntries[i].signature = 0 then -1 else (i : ℤ) := by
  unfold findFile
  dsimp only
  rw [if_neg (by omega)]
  split
  · next hsorted =>
    rw [binarySearch_eq (z.sorted hsorted), hidx, List.getElem?_eq_getElem hi, Option.any_some, hsorted]
    by_cases hzero : z.fileEntries[i].signature = 0
    · rw [if_neg (by simp [hzero]), if_pos ⟨rfl, hzero⟩]
    · rw [if_pos (decide_eq_true hzero), if_neg fun h => hzero h.2]
  · next hsorted => rw [hidx, if_pos hi, if_neg fun h => hsorted h.1]

/-- **What `FindFile` finds.** It is the index of a live entry of the name, or `-1` where there is none, if and only if
the first entry of the name is live, or the list is sorted and no live entry has the name. -/
theorem findFile_iff (z : Listing) (pathname : List UInt8) :
    Finds z pathname (findFile z pathname) ↔ FirstLive z pathname ∨ z.listSorted = true ∧ NoLive z pathname := by
  rcases hfind : z.fileEntries.find? (fun e => e.fileName.1 = pathname) with _ | e
  · have hnone : ∀ e ∈ z.fileEntries, e.fileName.1 ≠ pathname := by
      intro e he
      simpa using List.find?_eq_none.mp hfind e he
    have hfirst : FirstLive z pathname := by
      unfold FirstLive
      rw [hfind]
      exact fun e he => absurd he (Option.not_mem_none e)
    rw [findFile_of_none hnone]
    exact iff_of_true (.inr ⟨rfl, fun e he _ => hnone e he⟩) (.inl hfirst)
  · obtain ⟨hname, i, hi, rfl, hbefore⟩ := List.find?_eq_some_iff_getElem.mp hfind
    have hidx : z.fileEntries.findIdx (fun e => e.fileName.1 = pathname) = i :=
      (List.findIdx_eq hi).mpr ⟨hname, fun j hj => by simpa using hbefore j hj⟩
    have hfirst : FirstLive z pathname ↔ z.fileEntries[i].signature ≠ 0 := by
      unfold FirstLive
      rw [hfind]
      simp
    rw [findFile_of_first hi hidx, hfirst]
    by_cases hlive : z.fileEntries[i].signature = 0
    · by_cases hsorted : z.listSorted = true
      · rw [if_pos ⟨hsorted, hlive⟩]
        constructor
        · rintro (⟨j, e, hj, -⟩ | ⟨-, hno⟩)
          · omega
          · exact .inr ⟨hsorted, hno⟩
        · rintro (h | ⟨-, hno⟩)
          · exact absurd hlive h
          · exact .inr ⟨rfl, hno⟩
      · rw [if_neg fun h => hsorted h.1]
        refine iff_of_false ?_ ?_
        · rintro (⟨j, e, hj, he, hne, -⟩ | ⟨h, -⟩)
          · obtain rfl : i = j := by omega
            rw [List.getElem?_eq_getElem hi, Option.some.injEq] at he
            exact hne (he ▸ hlive)
          · omega
        · rintro (h | ⟨h, -⟩)
          · exact h hlive
          · exact hsorted h
    · rw [if_neg fun h => hlive h.2]
      refine iff_of_true (.inl ⟨i, z.fileEntries[i], rfl, List.getElem?_eq_getElem hi, hlive, ?_⟩) (.inl hlive)
      exact of_decide_eq_true hname

/-- `a` was removed and added again. -/
def readded : List FileEntry :=
  [{ newEntry [0x61] 1 0 0 0 with signature := 0 }, newEntry [0x61] 1 0 0 32]

/-- The list, sorted or not: the names are the same. -/
def readdedListing (listSorted : Bool) : Listing := ⟨readded, listSorted, fun _ => by decide⟩

/-- In the sorted list the name is not found, and in the other one it is the removed entry that is found. -/
theorem findFile_fails : ¬ Finds (readdedListing true) [0x61] (findFile (readdedListing true) [0x61]) ∧
    ¬ Finds (readdedListing false) [0x61] (findFile (readdedListing false) [0x61]) := by
  have hsorted : findFile (readdedListing true) [0x61] = -1 := by decide
  have hunsorted : findFile (readdedListing false) [0x61] = 0 := by decide
  have hlive : ∀ listSorted, ¬ NoLive (readdedListing listSorted) [0x61] := fun listSorted h =>
    h (newEntry [0x61] 1 0 0 32) (List.mem_cons_of_mem _ List.mem_cons_self) (by decide) (by decide)
  rw [hsorted, hunsorted]
  constructor
  · rintro (⟨i, e, hi, -⟩ | ⟨-, h⟩)
    · omega
    · exact hlive true h
  · rintro (⟨i, e, hi, he, hne, -⟩ | ⟨h, -⟩)
    · obtain rfl : i = 0 := by omega
      exact hne (congrArg FileEntry.signature (Option.some.inj he)).symm
    · omega

end Cpcf.Os.Zip

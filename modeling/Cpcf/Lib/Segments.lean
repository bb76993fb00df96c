import Mathlib

/-!
Walking from a directory along the segments of a path: `.` stays, `..` goes up, and above the root there is nothing.

A directory is the names that lead to it, and a path is inside it when the names that it leads along begin with these.
-/

namespace Cpcf.Lib.Segments

section Walk

variable {ν : Type*}

inductive Segment (ν : Type*)
  | here
  | up
  | name (n : ν)

/-- One segment from the directory `d`. -/
def step (d : List ν) : Segment ν → List ν
  | .here => d
  | .up => d.dropLast
  | .name n => d ++ [n]

/-- Where a path leads to from the directory `d`. -/
def walk (d : List ν) (ss : List (Segment ν)) : List ν := ss.foldl step d

variable {d : List ν} {s t : List (Segment ν)} {n : ν}

theorem walk_append : walk d (s ++ t) = walk (walk d s) t := List.foldl_append

@[simp] theorem walk_here : walk d [.here] = d := rfl

@[simp] theorem walk_name : walk d [.name n] = d ++ [n] := rfl

end Walk

variable {α : Type*} [DecidableEq α]

/-- How the segments of a text are written: the separator and the dot. -/
structure Spelling (α : Type*) where
  sep : α
  dot : α

variable (x : Spelling α) {p q n : List α}

def Spelling.segment (s : List α) : Segment (List α) :=
  if s = [] ∨ s = [x.dot] then .here else if s = [x.dot, x.dot] then .up else .name s

def Spelling.segments (p : List α) : List (Segment (List α)) := (p.splitOn x.sep).map x.segment

/-- Where a path leads to from the root. -/
def Spelling.resolve (p : List α) : List (List α) := walk [] (x.segments p)

/-- A name that is only itself. -/
def Spelling.IsName (n : List α) : Prop := n ≠ [] ∧ n ≠ [x.dot] ∧ n ≠ [x.dot, x.dot] ∧ x.sep ∉ n

variable {x}

theorem segments_append : x.segments (p ++ x.sep :: q) = x.segments p ++ x.segments q := by
  unfold Spelling.segments
  rw [List.splitOn_eq_splitOnP, List.splitOnP_append_cons _ _ (by simp), List.map_append]
  rfl

theorem resolve_append : x.resolve (p ++ x.sep :: q) = walk (x.resolve p) (x.segments q) := by
  rw [Spelling.resolve, segments_append, walk_append]
  rfl

/-- A separator at the end changes nothing. -/
@[simp] theorem resolve_append_sep : x.resolve (p ++ [x.sep]) = x.resolve p := by
  rw [resolve_append]
  rfl

theorem segments_name (h : x.IsName n) : x.segments n = [.name n] := by
  obtain ⟨h0, h1, h2, hsep⟩ := h
  unfold Spelling.segments
  rw [List.splitOn_eq_splitOnP, List.splitOnP_eq_singleton fun y hy => beq_false_of_ne (ne_of_mem_of_not_mem hy hsep)]
  simp [Spelling.segment, h0, h1, h2]

theorem resolve_name (h : x.IsName n) : x.resolve (p ++ x.sep :: n) = x.resolve p ++ [n] := by
  rw [resolve_append, segments_name h, walk_name]

end Cpcf.Lib.Segments

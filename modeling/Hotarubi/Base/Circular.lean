import Mathlib.Data.List.Basic
import Mathlib.Data.Nat.ModEq
import Mathlib.Logic.Function.Basic

/-! Cells read in a circle, as the sequence met from one of them on, and the newest
items of a sequence that a bounded store can keep. -/

namespace Hotarubi.Base.Circular

variable {α : Type*} {data : Nat → α} {len start count pos : Nat}

/-- The contents of `count` of `len` cells, from `start` on. -/
def window (data : Nat → α) (len start count : Nat) : List α :=
  (List.range count).map fun i => data ((start + i) % len)

theorem window_length : (window data len start count).length = count := by
  simp [window]

theorem window_succ : window data len start (count + 1) =
    window data len start count ++ [data ((start + count) % len)] := by
  simp [window, List.range_succ]

theorem window_tail : (window data len start (count + 1)).tail = window data len ((start + 1) % len) count := by
  simp [window, List.range_succ_eq_map, Function.comp_def, Nat.add_comm, Nat.add_left_comm]

/-- Two cells of the circle are the same only at the same distance. -/
theorem place_inj {i j : Nat} (first : i < len) (second : j < len) (same : (start + i) % len = (start + j) % len) :
    i = j := by
  have equal : Nat.ModEq len i j := Nat.ModEq.add_left_cancel' start same
  rwa [Nat.ModEq, Nat.mod_eq_of_lt first, Nat.mod_eq_of_lt second] at equal

/-- How many cells lead from `start` to `pos`. -/
def distance (len start pos : Nat) : Nat := (pos + len - start) % len

theorem distance_lt (start pos : Nat) (positive : 0 < len) : distance len start pos < len := Nat.mod_lt _ positive

theorem start_add_distance (first : start < len) (last : pos < len) : (start + distance len start pos) % len = pos := by
  have whole : start + (pos + len - start) = pos + len := by omega
  rw [distance, Nat.add_mod_mod, whole, Nat.add_mod_right, Nat.mod_eq_of_lt last]

/-- The distance to the cell that `count` steps reach. -/
theorem distance_eq (first : start < len) (short : count < len) : distance len start ((start + count) % len) = count := by
  have last : (start + count) % len < len := Nat.mod_lt _ (by omega)
  exact place_inj (distance_lt _ _ (by omega)) short (start_add_distance first last)

theorem next_eq (first : start < len) (last : pos < len) :
    (pos + 1) % len = (start + (distance len start pos + 1)) % len := by
  rw [← Nat.add_assoc, Nat.add_mod, Nat.add_mod (start + _), start_add_distance first last, Nat.mod_eq_of_lt last]

/-- With a cell to spare, one step lengthens the way by one. -/
theorem distance_next (first : start < len) (last : pos < len) (spare : distance len start pos + 1 < len) :
    distance len start ((pos + 1) % len) = distance len start pos + 1 := by
  rw [next_eq first last, distance_eq first spare]

/-- Without one, the step comes back to the start. -/
theorem next_full (first : start < len) (last : pos < len) (full : distance len start pos + 1 = len) :
    (pos + 1) % len = start := by
  rw [next_eq first last, full, Nat.add_mod_right, Nat.mod_eq_of_lt first]

theorem distance_around (first : start < len) (many : 2 ≤ len) : distance len ((start + 1) % len) start = len - 1 := by
  have next : (start + 1) % len < len := Nat.mod_lt _ (by omega)
  have around : ((start + 1) % len + (len - 1)) % len = start := by
    have whole : start + 1 + (len - 1) = start + len := by omega
    rw [Nat.mod_add_mod, whole, Nat.add_mod_right, Nat.mod_eq_of_lt first]
  have there := distance_eq next (Nat.sub_lt (by omega) Nat.zero_lt_one)
  rwa [around] at there

/-- Writing the cell behind a window leaves the window alone. -/
theorem window_update (data : Nat → α) (x : α) (short : count < len) :
    window (Function.update data ((start + count) % len) x) len start count = window data len start count := by
  refine List.map_congr_left fun i member => Function.update_of_ne (fun same => ?_) _ _
  have inside := List.mem_range.mp member
  have := place_inj (by omega) short same
  omega

/-- The cell at `pos` joins the window that led up to it. -/
theorem window_write (data : Nat → α) (x : α) (first : start < len) (last : pos < len) :
    window (Function.update data pos x) len start (distance len start pos + 1) =
      window data len start (distance len start pos) ++ [x] := by
  have reached := start_add_distance first last
  have old : window (Function.update data ((start + distance len start pos) % len) x) len start _ = _ :=
    window_update data x (distance_lt start pos (Nat.zero_lt_of_lt last))
  rw [reached] at old
  rw [window_succ, reached, Function.update_self, old]

/-- The last `n` items, or all of them if there are no more. -/
def newest (n : Nat) (xs : List α) : List α := xs.drop (xs.length - n)

theorem newest_of_le {n : Nat} {xs : List α} (few : xs.length ≤ n) : newest n xs = xs := by
  rw [newest, Nat.sub_eq_zero_of_le few, List.drop_zero]

theorem newest_length (n : Nat) (xs : List α) : (newest n xs).length = min xs.length n := by
  rw [newest, List.length_drop]
  omega

/-- A store that keeps the newest items needs no older ones. -/
theorem newest_append (n : Nat) (xs ys : List α) : newest n (newest n xs ++ ys) = newest n (xs ++ ys) := by
  by_cases few : xs.length ≤ n
  · rw [newest_of_le few]
  · have kept : (newest n xs).length = n := by
      rw [newest_length]
      omega
    have split : xs.take (xs.length - n) ++ newest n xs = xs := List.take_append_drop _ xs
    have older : (xs.take (xs.length - n)).length = xs.length - n := List.length_take_of_le (by omega)
    have place : (xs ++ ys).length - n = (xs.take (xs.length - n)).length + ((newest n xs ++ ys).length - n) := by
      rw [List.length_append, List.length_append, older, kept]
      omega
    have moved : newest n (xs ++ ys) = (xs.take (xs.length - n) ++ (newest n xs ++ ys)).drop
        ((xs.take (xs.length - n)).length + ((newest n xs ++ ys).length - n)) := by
      rw [← List.append_assoc, split, newest, place]
    rw [moved, List.drop_length_add_append, newest]

/-- A full store drops its oldest item for a new one. -/
theorem newest_concat_full {n : Nat} {xs : List α} {x : α} (full : xs.length = n + 1) :
    newest (n + 1) (xs ++ [x]) = xs.tail ++ [x] := by
  rw [newest, List.length_append, full, List.length_singleton, Nat.add_sub_cancel_left,
    List.drop_append_of_le_length (by omega), List.drop_one]

end Hotarubi.Base.Circular

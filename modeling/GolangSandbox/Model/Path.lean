import Mathlib.Data.List.Induction
import Mathlib.Tactic.Common

/-!
# Paths, lexically

A directory is the list of the names on the way to it from the root. A path is a list of
moves, one up or one down to a name, and `walk` follows it; the parent of the root is the
root. Without its detours a path is some steps up and then names (`route`), whatever
directory it is followed from (`walk_eq`), so it stays in a subdirectory exactly if its
names lead back into it (`walk_inside_iff`).
-/

set_option autoImplicit false

namespace GolangSandbox.Model

variable {ν : Type}

/-- A component of a path. -/
inductive Move (ν : Type) where
  | up
  | down (name : ν)
  deriving DecidableEq, Repr

/-- Following a path from a directory. -/
def walk (dir : List ν) : List (Move ν) → List ν
  | [] => dir
  | .up :: path => walk dir.dropLast path
  | .down name :: path => walk (dir ++ [name]) path

/-- A path without detours. -/
structure Route (ν : Type) where
  ups : ℕ
  names : List ν
  deriving DecidableEq, Repr

namespace Route

/-- One more move: a step up takes back a name, if there is one. -/
def move (r : Route ν) : Move ν → Route ν
  | .up => if r.names = [] then { r with ups := r.ups + 1 }
    else { r with names := r.names.dropLast }
  | .down name => { r with names := r.names ++ [name] }

/-- Where the route leads. -/
def dest (dir : List ν) (r : Route ν) : List ν := dir.take (dir.length - r.ups) ++ r.names

theorem dest_move (dir : List ν) (r : Route ν) (m : Move ν) :
    (r.move m).dest dir = walk (r.dest dir) [m] := by
  cases m with
  | down name => simp [move, dest, walk]
  | up =>
    by_cases hnames : r.names = []
    · have hdrop : (dir.take (dir.length - r.ups)).dropLast =
          dir.take (dir.length - (r.ups + 1)) := by
        rw [List.dropLast_eq_take, List.take_take, List.length_take]
        congr 1
        omega
      rw [move, if_pos hnames]
      simp only [dest, walk, hnames, List.append_nil, hdrop]
    · rw [move, if_neg hnames]
      simp only [dest, walk, List.dropLast_append_of_ne_nil hnames]

end Route

/-- The path without its detours. -/
def route (path : List (Move ν)) : Route ν := path.foldl Route.move ⟨0, []⟩

theorem walk_append (dir : List ν) (path rest : List (Move ν)) :
    walk dir (path ++ rest) = walk (walk dir path) rest := by
  induction path generalizing dir with
  | nil => rfl
  | cons m path ih =>
    cases m with
    | up => exact ih _
    | down name => exact ih _

theorem route_concat (path : List (Move ν)) (m : Move ν) :
    route (path ++ [m]) = (route path).move m := by
  rw [route, List.foldl_append]
  rfl

/-- **Following a path is following its route.** -/
theorem walk_eq (dir : List ν) (path : List (Move ν)) : walk dir path = (route path).dest dir := by
  induction path using List.reverseRecOn with
  | nil => simp [walk, route, Route.dest]
  | append_singleton path m ih => rw [walk_append, route_concat, Route.dest_move, ih]

/-- **Staying inside**: the names of the route first go back down the directories it has
gone up, and then into the subdirectory. -/
theorem walk_inside_iff (dir sub : List ν) (path : List (Move ν)) :
    dir ++ sub <+: walk dir path ↔
      dir.drop (dir.length - (route path).ups) ++ sub <+: (route path).names := by
  have hsplit : dir ++ sub = dir.take (dir.length - (route path).ups) ++
      (dir.drop (dir.length - (route path).ups) ++ sub) := by
    rw [← List.append_assoc, List.take_append_drop]
  rw [walk_eq, Route.dest, hsplit, List.prefix_append_right_inj]

/-- A path that only goes down. -/
theorem route_map_down (names : List ν) : route (names.map .down) = ⟨0, names⟩ := by
  induction names using List.reverseRecOn with
  | nil => rfl
  | append_singleton names name ih =>
    rw [List.map_append, List.map_singleton, route_concat, ih]
    rfl

end GolangSandbox.Model

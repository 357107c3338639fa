import GolangSandbox.Model.Path
import GolangSandbox.Program.TinyWeb

/-!
# Which files a URI names

The file name of a URI is a dot, the path of the URI and possibly `home.html`, so its
components are those of the URI (`pathOf_static`, `pathOf_dynamic`), except that the dot and
the first component are one: `/a` becomes `./a`, but `./a` becomes `../a`. Nothing removes a
`..`, and `walk_inside_iff` says when the file is inside the tree nevertheless.
-/

set_option autoImplicit false

namespace GolangSandbox.Analysis

open GolangSandbox.Model GolangSandbox.Program

/-- What a component of a file name does. -/
def component (name : Bytes) : Option (Move Bytes) :=
  if name = [] ∨ name = text "." then none
  else if name = text ".." then some .up
  else some (.down name)

/-- A file name as a path. -/
def pathOf (filename : Bytes) : List (Move Bytes) := (filename.splitOn slash).filterMap component

/-- From the working directory `cwd`, the file name denotes a path inside `cwd` and `sub`. -/
def Inside (cwd sub : List Bytes) (filename : Bytes) : Prop :=
  cwd ++ sub <+: walk cwd (pathOf filename)

instance (cwd sub : List Bytes) (filename : Bytes) : Decidable (Inside cwd sub filename) :=
  inferInstanceAs (Decidable (_ <+: _))

/-- The file of the URI is inside the working directory, and inside its `cgi-bin` if it is
to be executed. -/
def StaysInside (cwd : List Bytes) (uri : Bytes) : Prop :=
  ∀ t, parseUri uri = some t →
    Inside cwd [] t.filename ∧ (t.isStatic = false → Inside cwd [cgiBin] t.filename)

/-- The components of a URI, of which the first is read behind a dot. -/
def uriPath (uri : Bytes) : List (Move Bytes) :=
  match uri.splitOn slash with
  | [] => []
  | first :: rest => ((dot :: first) :: rest).filterMap component

/-- The path goes back down the directories it has gone up, and then into `sub`. -/
def Returns (cwd sub : List Bytes) (path : List (Move Bytes)) : Prop :=
  cwd.drop (cwd.length - (route path).ups) ++ sub <+: (route path).names

instance (cwd sub : List Bytes) (path : List (Move Bytes)) : Decidable (Returns cwd sub path) :=
  inferInstanceAs (Decidable (_ <+: _))

/-- The condition on a URI: a dynamic one returns into `cgi-bin` before the first `?`, a
static one returns, the default file being part of its path. -/
def Confined (cwd : List Bytes) (uri : Bytes) : Prop :=
  if strstr uri cgiBin then Returns cwd [cgiBin] (uriPath (uri.takeWhile (· != questionMark)))
  else Returns cwd [] (uriPath uri ++ if uri.getLast? = some slash then [.down homeHtml] else [])

instance (cwd : List Bytes) (uri : Bytes) : Decidable (Confined cwd uri) :=
  inferInstanceAs (Decidable (if strstr uri cgiBin = true then Returns .. else Returns ..))

variable {cwd sub : List Bytes} {uri filename : Bytes}

theorem pathOf_dot (uri : Bytes) : pathOf (dot :: uri) = uriPath uri := by
  have hdot : (dot == slash) = false := rfl
  rw [pathOf, uriPath, List.splitOn_cons_eq_if_modifyHead, hdot]
  cases h : uri.splitOn slash with
  | nil => exact absurd h (List.splitOn_ne_nil _ _)
  | cons first rest => rfl

/-- What is behind a slash is a path of its own. -/
theorem pathOf_append (s t : Bytes) : pathOf (s ++ slash :: t) = pathOf s ++ pathOf t := by
  rw [pathOf, List.splitOn_append_cons_self, List.filterMap_append]
  rfl

theorem pathOf_homeHtml : pathOf homeHtml = [.down homeHtml] := by decide

theorem pathOf_static (uri : Bytes) :
    pathOf ([dot] ++ uri ++ (if uri.getLast? = some slash then homeHtml else [])) =
      uriPath uri ++ if uri.getLast? = some slash then [.down homeHtml] else [] := by
  by_cases hslash : uri.getLast? = some slash
  · rw [if_pos hslash, if_pos hslash]
    obtain ⟨front, rfl⟩ := List.getLast?_eq_some_iff.mp hslash
    have hnil : pathOf [] = [] := rfl
    have hhome := pathOf_append (dot :: front) homeHtml
    have hempty := pathOf_append (dot :: front) []
    rw [pathOf_homeHtml] at hhome
    rw [hnil, List.append_nil] at hempty
    rw [← pathOf_dot, List.append_assoc, List.append_assoc]
    exact hhome.trans (congrArg (· ++ _) hempty.symm)
  · rw [if_neg hslash, if_neg hslash, List.append_nil, List.append_nil]
    exact pathOf_dot uri

theorem inside_iff : Inside cwd sub filename ↔ Returns cwd sub (pathOf filename) :=
  walk_inside_iff cwd sub _

/-- What is inside a subdirectory is inside the directory. -/
theorem Inside.of_sub (h : Inside cwd sub filename) :
    Inside cwd [] filename := by
  unfold Inside at h ⊢
  rw [List.append_nil]
  exact (List.prefix_append cwd sub).trans h

/-- A path without a `..` returns from nowhere. -/
theorem returns_of_down (cwd : List Bytes) {path : List (Move Bytes)} (h : .up ∉ path) :
    Returns cwd [] path := by
  have hdown : ∃ names : List Bytes, path = names.map .down := by
    induction path with
    | nil => exact ⟨[], rfl⟩
    | cons m path ih =>
      rw [List.mem_cons, not_or] at h
      obtain ⟨names, rfl⟩ := ih h.2
      cases m with
      | up => exact absurd rfl h.1
      | down name => exact ⟨name :: names, rfl⟩
  obtain ⟨names, rfl⟩ := hdown
  rw [Returns, route_map_down, Nat.sub_zero, List.drop_length]
  exact List.nil_prefix

/-- A static URI that begins with a slash and has no component `..` stays inside every
working directory. -/
theorem confined_of_rooted (cwd : List Bytes) (rest : Bytes)
    (hstatic : strstr (slash :: rest) cgiBin = false) (hplain : text ".." ∉ rest.splitOn slash) :
    Confined cwd (slash :: rest) := by
  have hcomponent : ∀ name, component name = some .up → name = text ".." := by
    intro name hname
    unfold component at hname
    split at hname
    · cases hname
    · split at hname
      · rename_i heq
        exact heq
      · cases hname
  have hpath : .up ∉ uriPath (slash :: rest) := by
    rw [← pathOf_dot]
    have happend := pathOf_append [dot] rest
    rw [List.singleton_append] at happend
    rw [happend]
    intro hup
    obtain hup | hup := List.mem_append.mp hup
    · revert hup
      decide
    · obtain ⟨name, hmem, hname⟩ := List.mem_filterMap.mp hup
      rw [hcomponent name hname] at hmem
      exact hplain hmem
  rw [Confined, hstatic, if_neg Bool.false_ne_true]
  apply returns_of_down
  intro hup
  obtain hup | hup := List.mem_append.mp hup
  · exact hpath hup
  · split at hup
    · cases List.mem_singleton.mp hup
    · cases hup

/-- An empty URI names no file, and its path goes nowhere. -/
theorem stays_inside_nil (cwd : List Bytes) : StaysInside cwd [] ∧ Confined cwd [] := by
  constructor
  · intro t ht
    rw [parseUri_nil] at ht
    cases ht
  · have hpath : uriPath [] = [] := by decide
    have hstatic : strstr [] cgiBin = false := by decide
    rw [Confined, hstatic, hpath]
    exact returns_of_down cwd List.not_mem_nil

/-- **A request stays inside the served tree** if and only if the path of its URI does.
SOURCE: csapp/charpter11/tinyweb.c:142-171 -/
theorem stays_inside_iff (cwd : List Bytes) (uri : Bytes) :
    StaysInside cwd uri ↔ Confined cwd uri := by
  by_cases hne : uri = []
  · rw [hne]
    exact iff_of_true (stays_inside_nil cwd).1 (stays_inside_nil cwd).2
  cases hdynamic : strstr uri cgiBin with
  | true =>
    rw [StaysInside, Confined, hdynamic, if_pos rfl, parseUri_dynamic hdynamic, ← pathOf_dot,
      ← inside_iff]
    constructor
    · intro h
      exact (h _ rfl).2 rfl
    · rintro h t ⟨⟩
      exact ⟨h.of_sub, fun _ => h⟩
  | false =>
    rw [StaysInside, Confined, hdynamic, if_neg Bool.false_ne_true, parseUri_static hdynamic hne,
      ← pathOf_static, ← inside_iff]
    constructor
    · intro h
      exact (h _ rfl).1
    · rintro h t ⟨⟩
      exact ⟨h, nofun⟩

/-- A static file in the tree, from `/srv/www`. -/
theorem stays_inside_index :
    StaysInside [text "srv", text "www"] (text "/docs/../index.html") :=
  (stays_inside_iff _ (text "/docs/../index.html")).mpr (by decide)

/-- Three requests that leave: by a `..`, by the dot in front of the URI, and by a query that
turns a static file into a program. -/
theorem leaves_tree :
    ¬ StaysInside [text "srv", text "www"] (text "/../etc/passwd") ∧
      ¬ StaysInside [text "srv", text "www"] (text "./etc/passwd") ∧
      ¬ StaysInside [text "srv", text "www"] (text "/index.html?cgi-bin") := by
  refine ⟨fun h => ?_, fun h => ?_, fun h => ?_⟩
  · have hinside := (h _ rfl).1
    revert hinside
    decide
  · have hinside := (h _ rfl).1
    revert hinside
    decide
  · have hinside := (h _ rfl).2 rfl
    revert hinside
    decide

end GolangSandbox.Analysis

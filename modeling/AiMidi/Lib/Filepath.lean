import AiMidi.Lib.Bytes
import Mathlib.Data.List.Basic

/-!
# `AiMidi.Lib.Filepath`: joining slash-separated paths

`clean` and `join` are Go's `filepath.Clean` and `filepath.Join` on Unix. `clean` keeps a
stack of path elements: it skips empty elements and `.`, and `..` removes the element before
it.

`join_fileName` says that joining a plain file name onto a directory appends it to a prefix
that only the directory determines, so different names give different paths
(`join_injective`).
-/

set_option autoImplicit false

namespace AiMidi.Lib.Filepath

/-- One path element on the stack of the elements before it. -/
def cleanStep (rooted : Bool) (stack : List Bytes) (elem : Bytes) : List Bytes :=
  if elem = [] ∨ elem = bytes "." then stack
  else if elem = bytes ".." then
    match stack.getLast? with
    -- A `..` cannot be cancelled by another one. At the root it goes nowhere.
    | some top => if top = bytes ".." then stack ++ [bytes ".."] else stack.dropLast
    | none     => if rooted then [] else [bytes ".."]
  else stack ++ [elem]

/-- The shortest path with the same lexical meaning. -/
def clean (path : Bytes) : Bytes :=
  if path = [] then bytes "."
  else
    let rooted := path.head? == some 0x2F
    let stack := (path.splitOn 0x2F).foldl (cleanStep rooted) []
    if rooted then 0x2F :: (bytes "/").intercalate stack
    else if stack = [] then bytes "."
    else (bytes "/").intercalate stack

/-- Empty leading elements are ignored. -/
def join : List Bytes → Bytes
  | []      => []
  | e :: es => if e ≠ [] then clean ((bytes "/").intercalate (e :: es)) else join es

/-! ### Paths that are not empty

An empty path is cleaned to a dot, and no element on the stack is empty. So a clean path always
names something. -/

/-- No element on the stack is empty. -/
theorem ne_nil_of_mem_cleanStep {rooted : Bool} {stack : List Bytes} {elem e : Bytes}
    (hstack : ∀ e ∈ stack, e ≠ []) (h : e ∈ cleanStep rooted stack elem) : e ≠ [] := by
  rw [cleanStep] at h
  split at h
  -- An empty element and a dot leave the stack as it is.
  · exact hstack e h
  · rename_i helem
    -- A `..` takes the top away, or it stays as a name of its own.
    split at h
    · split at h
      · split at h
        · rw [List.mem_append, List.mem_singleton] at h
          exact h.elim (hstack e) (fun heq => by simp [heq, bytes])
        · exact hstack e (List.dropLast_subset stack h)
      · split at h
        · simp at h
        · simp [List.mem_singleton.mp h, bytes]
    · rw [List.mem_append, List.mem_singleton] at h
      exact h.elim (hstack e) (fun heq => heq ▸ fun hnil => helem (Or.inl hnil))

/-- The stack of names never holds an empty one. -/
theorem ne_nil_of_mem_foldl_cleanStep {rooted : Bool} {elems stack : List Bytes}
    (hstack : ∀ e ∈ stack, e ≠ []) :
    ∀ e ∈ elems.foldl (cleanStep rooted) stack, e ≠ [] := by
  induction elems generalizing stack with
  | nil => exact hstack
  | cons elem elems ih =>
    rw [List.foldl_cons]
    exact ih fun e he => ne_nil_of_mem_cleanStep hstack he

/-- A clean path is not empty. -/
theorem clean_ne_nil (path : Bytes) : clean path ≠ [] := by
  rw [clean]
  split
  · simp [bytes]
  · dsimp only
    have hstack : ∀ e ∈ (path.splitOn 0x2F).foldl (cleanStep (path.head? == some 0x2F)) [],
        e ≠ [] := ne_nil_of_mem_foldl_cleanStep (by simp)
    generalize (path.splitOn 0x2F).foldl (cleanStep (path.head? == some 0x2F)) [] = stack
      at hstack ⊢
    split
    · simp
    · cases stack with
      | nil => simp [bytes]
      | cons e es =>
        have he : e ≠ [] := hstack e (by simp)
        cases es <;> simp [he]

/-- A join with an element that is not empty is not empty. -/
theorem join_ne_nil_of_mem {elems : List Bytes} {e : Bytes} (h : e ∈ elems) (he : e ≠ []) :
    join elems ≠ [] := by
  induction elems with
  | nil => simp at h
  | cons d ds ih =>
    rw [join]
    split
    · exact clean_ne_nil _
    · rename_i hd
      rw [not_not] at hd
      cases h with
      | head => exact absurd hd he
      | tail _ h => exact ih h

/-! ### Joining a file name

A file name is neither `.` nor `..`, has no slash and is not empty, so it is pushed onto the stack
as it is. What stands in front of it is the same for all files of the directory. -/

/-- The name of a file in a directory. -/
structure IsFileName (name : Bytes) : Prop where
  ne_nil : name ≠ []
  no_slash : 0x2F ∉ name
  ne_dot : name ≠ bytes "."
  ne_dotDot : name ≠ bytes ".."

/-- A plain file name is pushed as it is. -/
theorem cleanStep_fileName {name : Bytes} (h : IsFileName name) (rooted : Bool)
    (stack : List Bytes) : cleanStep rooted stack name = stack ++ [name] := by
  rw [cleanStep, if_neg (by simp [h.ne_nil, h.ne_dot]), if_neg h.ne_dotDot]

/-- The last element ends the joined string. -/
theorem intercalate_concat (sep : Bytes) (elems : List Bytes) :
    ∃ p, ∀ name, sep.intercalate (elems ++ [name]) = p ++ name := by
  induction elems with
  | nil => exact ⟨[], fun name => by simp⟩
  | cons e es ih =>
    obtain ⟨p, hp⟩ := ih
    refine ⟨e ++ sep ++ p, fun name => ?_⟩
    have hne : es ++ [name] ≠ [] := by simp
    rw [List.cons_append, List.intercalate_cons_of_ne_nil hne, hp]
    simp

/-- The path of a file is a prefix that the directory determines, and the name. -/
theorem join_fileName (dir : Bytes) :
    ∃ p, ∀ name, IsFileName name → join [dir, name] = p ++ name := by
  cases dir with
  | nil =>
    refine ⟨[], fun name h => ?_⟩
    -- An empty directory is ignored, and the name alone is a clean path.
    obtain ⟨c, cs, rfl⟩ := List.exists_cons_of_ne_nil h.ne_nil
    have hc : c ≠ 0x2F := fun heq => h.no_slash (heq ▸ List.mem_cons_self)
    have hsplit : (c :: cs).splitOn 0x2F = [c :: cs] := List.splitOn_eq_singleton h.no_slash
    simp [join, clean, hsplit, cleanStep_fileName h, hc]
  | cons d ds =>
    -- The prefix is the stack that `clean` builds from the directory, with its separators.
    obtain ⟨p, hp⟩ := intercalate_concat (bytes "/")
      (((d :: ds).splitOn 0x2F).foldl (cleanStep (d == 0x2F)) [])
    refine ⟨if d == 0x2F then 0x2F :: p else p, fun name h => ?_⟩
    have hpath : (bytes "/").intercalate [d :: ds, name] = d :: (ds ++ 0x2F :: name) := by
      simp [bytes]
    -- A name without a slash is one more element behind those of the directory.
    have hsplit : (d :: (ds ++ 0x2F :: name)).splitOn 0x2F
        = (d :: ds).splitOn 0x2F ++ [name] := by
      rw [← List.cons_append, List.splitOn_append_cons_self,
        List.splitOn_eq_singleton h.no_slash]
    have hrooted : ((d :: (ds ++ 0x2F :: name)).head? == some 0x2F) = (d == 0x2F) := by simp
    rw [join, if_pos (List.cons_ne_nil d ds), hpath, clean, if_neg (List.cons_ne_nil _ _)]
    simp only [hrooted, hsplit, List.foldl_append, List.foldl_cons, List.foldl_nil,
      cleanStep_fileName h, hp]
    split <;> simp

/-- Different files of one directory have different paths. -/
theorem join_injective {dir a b : Bytes} (ha : IsFileName a) (hb : IsFileName b)
    (h : join [dir, a] = join [dir, b]) : a = b := by
  obtain ⟨p, hp⟩ := join_fileName dir
  rw [hp a ha, hp b hb] at h
  exact List.append_cancel_left h

/-- The path of a file is not empty. -/
theorem join_ne_nil {dir name : Bytes} (h : IsFileName name) : join [dir, name] ≠ [] := by
  obtain ⟨p, hp⟩ := join_fileName dir
  rw [hp name h]
  exact List.append_ne_nil_of_right_ne_nil _ h.ne_nil

example : join [bytes "/tmp//x/../aimidi/", bytes "a.mid"] = bytes "/tmp/aimidi/a.mid" := by
  decide

end AiMidi.Lib.Filepath

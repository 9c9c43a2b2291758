import Mathlib.Data.List.Induction
import Mathlib.Data.List.Sort
import Mathlib.Order.Defs.LinearOrder

/-!
# `AiMidi.Lib.StdMap`: ordered containers

A `std::set` is the ascending list of its elements (`setOf`). A `std::map` from keys to
vectors is the list of its entries, in ascending order of the keys: `pushBack` is
`map[key].push_back(value)`, and `groupBy` fills a map from a list.

`setOf_congr` says that a set knows the elements of its list only. `sorted_groupBy` and
`mem_keys_groupBy` say which keys an iteration over a map visits, and in which order.
`mem_groupBy` says which values it finds there, and `perm_groupBy` that these are all values.

The keys have a linear order and nothing else is asked of them. Pushing is defined by recursion
along the entries, which keeps the order, and every fact about `groupBy` is an induction on the list
with the fact about `pushBack` as its step.
-/

set_option autoImplicit false

namespace AiMidi.Lib

variable {κ α : Type} [LinearOrder κ]

/-- The set of the elements of a list. -/
def setOf (xs : List κ) : List κ :=
  xs.foldl (fun s x => if x ∈ s then s else s.orderedInsert (· ≤ ·) x) []

/-- `map[key].push_back(value)`. -/
def pushBack (key : κ) (value : α) : List (κ × List α) → List (κ × List α)
  | [] => [(key, [value])]
  | (k, values) :: rest =>
    if key < k then (key, [value]) :: (k, values) :: rest
    else if key = k then (k, values ++ [value]) :: rest
    else (k, values) :: pushBack key value rest

/-- The map of the values of a list by their keys. -/
def groupBy (key : α → κ) (values : List α) : List (κ × List α) :=
  values.foldl (fun m v => pushBack (key v) v m) []

/-- A set has the elements of its list. -/
theorem mem_setOf {xs : List κ} {x : κ} : x ∈ setOf xs ↔ x ∈ xs := by
  -- The insertions start from the empty set. Generalise over the set so far.
  have hfold : ∀ s : List κ, x ∈ xs.foldl
      (fun s x => if x ∈ s then s else s.orderedInsert (· ≤ ·) x) s ↔ x ∈ s ∨ x ∈ xs := by
    induction xs with
    | nil => simp
    | cons y ys ih =>
      intro s
      rw [List.foldl_cons, ih, List.mem_cons]
      by_cases hy : y ∈ s
      · rw [if_pos hy]
        constructor
        · rintro (h | h)
          · exact .inl h
          · exact .inr (.inr h)
        · rintro (h | rfl | h)
          · exact .inl h
          · exact .inl hy
          · exact .inr h
      · rw [if_neg hy, List.mem_orderedInsert]
        tauto
  rw [setOf, hfold]
  simp

/-- A set is visited in strictly ascending order. -/
theorem sorted_setOf (xs : List κ) : (setOf xs).Pairwise (· < ·) := by
  -- The invariant of the insertions: the set so far is sorted.
  have hfold : ∀ s : List κ, s.Pairwise (· < ·) → (xs.foldl
      (fun s x => if x ∈ s then s else s.orderedInsert (· ≤ ·) x) s).Pairwise (· < ·) := by
    induction xs with
    | nil => exact fun _ h => h
    | cons y ys ih =>
      intro s hs
      rw [List.foldl_cons]
      apply ih
      by_cases hy : y ∈ s
      · rw [if_pos hy]
        exact hs
      · rw [if_neg hy]
        -- The insertion is sorted by `≤`, and the new element is none of the others.
        have hle := List.Pairwise.orderedInsert (r := (· ≤ ·)) y s (hs.imp le_of_lt)
        have hne : (s.orderedInsert (· ≤ ·) y).Nodup :=
          (List.perm_orderedInsert (· ≤ ·) y s).nodup_iff.mpr
            (List.nodup_cons.mpr ⟨hy, hs.imp ne_of_lt⟩)
        exact hle.imp₂ (fun _ _ => lt_of_le_of_ne) hne
  exact hfold [] List.Pairwise.nil

/-- Lists with the same elements have the same set. -/
theorem setOf_congr {xs ys : List κ} (h : ∀ x, x ∈ xs ↔ x ∈ ys) : setOf xs = setOf ys := by
  apply (sorted_setOf xs).eq_of_mem_iff (sorted_setOf ys)
  intro x
  rw [mem_setOf, mem_setOf, h]

/-! ### Keys

The keys are kept in ascending order by every push. So the order in which a map is visited does not
depend on the order of the pushes. -/

/-- Pushing to a key adds that key and no other. -/
theorem mem_keys_pushBack {key k : κ} {value : α} {m : List (κ × List α)} :
    k ∈ (pushBack key value m).map Prod.fst ↔ k = key ∨ k ∈ m.map Prod.fst := by
  induction m with
  | nil => simp [pushBack]
  | cons entry rest ih =>
    obtain ⟨k', values⟩ := entry
    rw [pushBack]
    split
    · simp
    · split
      · rename_i heq
        simp [heq]
      · rw [List.map_cons, List.mem_cons, ih, List.map_cons, List.mem_cons]
        tauto

/-- Pushing keeps the keys in strictly ascending order. -/
theorem sorted_pushBack {key : κ} {value : α} {m : List (κ × List α)}
    (h : (m.map Prod.fst).Pairwise (· < ·)) :
    ((pushBack key value m).map Prod.fst).Pairwise (· < ·) := by
  induction m with
  | nil => simp [pushBack]
  | cons entry rest ih =>
    obtain ⟨k', values⟩ := entry
    rw [List.map_cons, List.pairwise_cons] at h
    rw [pushBack]
    split
    · rename_i hlt
      rw [List.map_cons, List.pairwise_cons, List.map_cons]
      refine ⟨fun k hk => ?_, List.pairwise_cons.mpr h⟩
      obtain rfl | hk := List.mem_cons.mp hk
      · exact hlt
      · exact hlt.trans (h.1 k hk)
    · split
      · rw [List.map_cons, List.pairwise_cons]
        exact h
      · rename_i hnlt hne
        rw [List.map_cons, List.pairwise_cons]
        -- The new key lies behind `k'`: it is neither smaller nor equal.
        refine ⟨fun k hk => ?_, ih h.2⟩
        obtain rfl | hk := mem_keys_pushBack.mp hk
        · exact lt_of_le_of_ne (not_lt.mp hnlt) (Ne.symm hne)
        · exact h.1 k hk

/-- The keys of a map are visited in strictly ascending order. -/
theorem sorted_groupBy (key : α → κ) (values : List α) :
    ((groupBy key values).map Prod.fst).Pairwise (· < ·) := by
  -- The invariant of the fold: the map so far is sorted.
  have hfold : ∀ m : List (κ × List α), (m.map Prod.fst).Pairwise (· < ·) →
      ((values.foldl (fun m v => pushBack (key v) v m) m).map Prod.fst).Pairwise (· < ·) := by
    induction values with
    | nil => exact fun _ h => h
    | cons v vs ih => exact fun m h => ih _ (sorted_pushBack h)
  exact hfold [] List.Pairwise.nil

/-- The keys of the map are the keys of the values. -/
theorem mem_keys_groupBy {key : α → κ} {values : List α} {k : κ} :
    k ∈ (groupBy key values).map Prod.fst ↔ ∃ v ∈ values, key v = k := by
  -- Generalised over the map so far, whose keys stay.
  have hfold : ∀ m : List (κ × List α),
      k ∈ (values.foldl (fun m v => pushBack (key v) v m) m).map Prod.fst ↔
        k ∈ m.map Prod.fst ∨ ∃ v ∈ values, key v = k := by
    induction values with
    | nil => simp
    | cons v vs ih =>
      intro m
      rw [List.foldl_cons, ih, mem_keys_pushBack]
      simp only [List.mem_cons, exists_eq_or_imp, eq_comm (a := k)]
      tauto
  rw [groupBy, hfold]
  simp

/-! ### Values

A push changes the entry of one key. The values of a key are in the order in which they were
pushed. -/

/-- Pushing leaves the entries of the other keys. -/
theorem mem_pushBack_of_ne {key k : κ} {value : α} {values : List α} {m : List (κ × List α)}
    (hk : k ≠ key) : (k, values) ∈ pushBack key value m ↔ (k, values) ∈ m := by
  induction m with
  | nil => simp [pushBack, hk]
  | cons entry rest ih =>
    obtain ⟨k', values'⟩ := entry
    rw [pushBack]
    split
    · simp [hk]
    · split
      case isTrue heq => simp [← heq, hk]
      case isFalse => rw [List.mem_cons, ih, List.mem_cons]

/-- Pushing extends the entry of the key, or makes one. -/
theorem mem_pushBack_self {key : κ} {value : α} {values : List α} {m : List (κ × List α)}
    (h : (m.map Prod.fst).Pairwise (· < ·)) :
    (key, values) ∈ pushBack key value m ↔
      (∃ old, (key, old) ∈ m ∧ values = old ++ [value]) ∨
        (key ∉ m.map Prod.fst ∧ values = [value]) := by
  induction m with
  | nil => simp [pushBack]
  | cons entry rest ih =>
    obtain ⟨k', values'⟩ := entry
    rw [List.map_cons, List.pairwise_cons] at h
    -- The keys behind `k'` are larger, so a key up to `k'` is not among them.
    have hrest : key ≤ k' → key ∉ rest.map Prod.fst := fun hle hmem =>
      absurd (h.1 key hmem) (not_lt.mpr hle)
    have hnone : key ≤ k' → ∀ vs, (key, vs) ∉ rest := fun hle vs hmem =>
      hrest hle (List.mem_map_of_mem (f := Prod.fst) hmem)
    rw [pushBack]
    split
    case isTrue hlt => simp [hlt.ne, hnone hlt.le, hrest hlt.le]
    case isFalse =>
      split
      case isTrue heq =>
        subst heq
        simp [hnone le_rfl]
      case isFalse hne =>
        rw [List.mem_cons, ih h.2]
        simp [hne]

/-- The entries of the map: each key that occurs, with its values in their order. -/
theorem mem_groupBy {key : α → κ} {values vs : List α} {k : κ} :
    (k, vs) ∈ groupBy key values ↔ vs = values.filter (fun v => key v = k) ∧ vs ≠ [] := by
  -- The values are pushed one by one, so the induction takes them from the end.
  induction values using List.reverseRecOn generalizing vs with
  | nil => simp [groupBy]
  | append_singleton values v ih =>
    have hconcat : groupBy key (values ++ [v]) = pushBack (key v) v (groupBy key values) :=
      List.foldl_concat ..
    rw [hconcat, List.filter_append]
    -- A value of the key goes behind the ones that are there, and any other leaves the entry.
    by_cases hk : k = key v
    · subst hk
      have hnil : values.filter (fun v' => key v' = key v) = [] ↔
          ¬ ∃ v' ∈ values, key v' = key v := by simp [List.filter_eq_nil_iff]
      rw [mem_pushBack_self (sorted_groupBy key values), mem_keys_groupBy, ← hnil]
      simp only [ih]
      by_cases hvalues : values.filter (fun v' => key v' = key v) = []
      · simp +contextual [hvalues]
      · simp +contextual [hvalues]
    · rw [mem_pushBack_of_ne hk, ih]
      simp [Ne.symm hk]

/-- Pushing adds the value to the values of the map. -/
theorem perm_pushBack (key : κ) (value : α) (m : List (κ × List α)) :
    ((pushBack key value m).flatMap Prod.snd).Perm (value :: m.flatMap Prod.snd) := by
  induction m with
  | nil => exact List.Perm.refl _
  | cons entry rest ih =>
    obtain ⟨k', values'⟩ := entry
    rw [pushBack]
    split
    · exact List.Perm.refl _
    · split
      · simp only [List.flatMap_cons, List.append_assoc, List.singleton_append]
        exact List.perm_middle
      · simp only [List.flatMap_cons]
        exact (ih.append_left values').trans List.perm_middle

/-- No value is lost, and none is there twice. -/
theorem perm_groupBy (key : α → κ) (values : List α) :
    ((groupBy key values).flatMap Prod.snd).Perm values := by
  induction values using List.reverseRecOn with
  | nil => exact List.Perm.refl _
  | append_singleton values v ih =>
    have hconcat : groupBy key (values ++ [v]) = pushBack (key v) v (groupBy key values) :=
      List.foldl_concat ..
    rw [hconcat]
    exact ((perm_pushBack _ _ _).trans (ih.cons v)).trans (List.perm_append_singleton v values).symm

/-- The values in front, when they have one key below all others, are the first entry. -/
theorem groupBy_append {key : α → κ} {k : κ} {values rest : List α} (hne : values ≠ [])
    (hkey : ∀ v ∈ values, key v = k) (hrest : ∀ v ∈ rest, k < key v) :
    groupBy key (values ++ rest) = (k, values) :: groupBy key rest := by
  -- Both sides are in ascending order of the keys, so their entries are left to compare.
  have hsorted : (((k, values) :: groupBy key rest).map Prod.fst).Pairwise (· < ·) := by
    rw [List.map_cons, List.pairwise_cons]
    refine ⟨fun k' hk' => ?_, sorted_groupBy key rest⟩
    obtain ⟨v, hv, rfl⟩ := mem_keys_groupBy.mp hk'
    exact hrest v hv
  apply (List.pairwise_map.mp (sorted_groupBy key (values ++ rest))).eq_of_mem_iff
    (List.pairwise_map.mp hsorted)
  rintro ⟨k', vs⟩
  rw [mem_groupBy, List.mem_cons, mem_groupBy, List.filter_append, Prod.mk.injEq]
  by_cases hk : k' = k
  · subst hk
    have hall : values.filter (fun v => key v = k') = values := by simpa using hkey
    have hnone : rest.filter (fun v => key v = k') = [] := by
      rw [List.filter_eq_nil_iff]
      intro v hv heq
      rw [decide_eq_true_iff] at heq
      exact absurd heq (hrest v hv).ne'
    rw [hall, hnone, List.append_nil]
    grind
  · have hnone : values.filter (fun v => key v = k') = [] := by
      rw [List.filter_eq_nil_iff]
      intro v hv heq
      rw [decide_eq_true_iff, hkey v hv] at heq
      exact hk heq.symm
    rw [hnone, List.nil_append]
    simp [hk]

end AiMidi.Lib

import AiMidi.Theory.PromptInterpreter

/-!
# `AiMidi.Proofs.KeyPhrases`: how `key of N M` is read

The interpreter looks for `key of` with a natural note before anything else, and takes what it
finds for a major key. `key of c minor` and `key of f# major` contain such a phrase, so the mode
and the accidental behind it are never looked at (`detectKeyAndScale_of_find?`).
`readsKey_iff` says for which texts, notes and modes the phrase is read as it stands.

The phrase adds one occurrence of `key of` to the text in front of it, with the letter of its note
(`contains_prompt_iff`). The search goes through the natural notes in the order of the table, so
what it finds first is decided by the notes before that letter (`find?_eq_some_iff_takeWhile`).
-/

set_option autoImplicit false

namespace AiMidi.Proofs.KeyPhrases

open AiMidi.Lib AiMidi.Theory AiMidi.Theory.PromptInterpreter

/-! ### The property -/

/-- The note names of the tables, as they are displayed. -/
def noteNames : List Bytes := naturalNotes.map ucfirst ++ accidentals.map Prod.snd

/-- The two modes that a prompt can name. -/
def modes : List Bytes := [bytes "major", bytes "minor"]

/-- The phrase that names a key. -/
def keyPhrase (note mode : Bytes) : Bytes := bytes "key of " ++ note ++ bytes " " ++ mode

/-- The prompt is interpreted with the key and the scale that the phrase behind `w` names. -/
def ReadsKey (w note mode : Bytes) (seed : Seed) : Prop :=
  (interpret (w ++ keyPhrase note mode) seed).rootKey = note ∧
    (interpret (w ++ keyPhrase note mode) seed).scale = mode

/-- The condition: a natural major key, and in front of the phrase no `key of` with a note that is
looked for earlier. A text that asks for literal notes gives C major. -/
def Readable (w note mode : Bytes) : Prop :=
  mode = bytes "major" ∧
    if hasLiteralNotes (toLowerBytes w) then note = bytes "C"
    else note ∈ naturalNotes.map ucfirst ∧
      ∀ n ∈ naturalNotes.takeWhile (· ≠ toLowerBytes note),
        contains (toLowerBytes w) (bytes "key of " ++ n) = false

/-! ### Searching

The interpreter tries the natural notes in the order of its table and stops at the first that the
text names. The lemmas describe such a search by what stands before the element that is found. -/

/-- The search for `key of Xm` extends the one before it. -/
theorem keyOfNatural_eq (lower n : Bytes) :
    keyOfNatural lower n =
      if contains lower (bytes "key of " ++ n) then some (ucfirst n, bytes "major")
      else none := by
  rw [keyOfNatural]
  split
  · rfl
  · rename_i h
    rw [if_neg fun hm => h (contains_of_append (bytes "m") hm)]

/-- The search of the key phrases without a mode finds the first note that the text names. -/
theorem findSome?_keyOfNatural (lower : Bytes) (notes : List Bytes) :
    notes.findSome? (keyOfNatural lower)
      = (notes.find? fun n => contains lower (bytes "key of " ++ n)).map
          fun n => (ucfirst n, bytes "major") := by
  induction notes with
  | nil => rfl
  | cons n notes ih =>
    rw [List.findSome?_cons, List.find?_cons, keyOfNatural_eq, ih]
    cases contains lower (bytes "key of " ++ n) <;> rfl

/-- The first natural note behind `key of` decides. -/
theorem detectKeyAndScale_of_find? {lower n : Bytes}
    (h : naturalNotes.find? (fun n => contains lower (bytes "key of " ++ n)) = some n) :
    detectKeyAndScale lower = (ucfirst n, bytes "major") := by
  rw [detectKeyAndScale, findSome?_keyOfNatural, h]
  rfl

/-- An element with the property is the first one when no element before it has it. -/
theorem find?_eq_some_iff_takeWhile {α : Type} [DecidableEq α] {p : α → Bool} {xs : List α}
    {x : α} (hx : x ∈ xs) (hp : p x = true) :
    xs.find? p = some x ↔ ∀ y ∈ xs.takeWhile (· ≠ x), p y = false := by
  induction xs with
  | nil => simp at hx
  | cons y ys ih =>
    by_cases hyx : y = x
    · subst hyx
      simp [hp]
    · have hxs : x ∈ ys := (List.mem_cons.mp hx).resolve_left (Ne.symm hyx)
      rw [List.find?_cons, List.takeWhile_cons_of_pos (by simpa using hyx)]
      cases hy : p y with
      | true => simp [hyx, hy]
      | false => simp [hy, ih hxs]

/-! ### The phrase

What the search sees of the phrase is `key of` and the letter of its note. The accidental and the
mode are behind that letter, where it does not look. -/

/-- Lowering the case of a text lowers both its parts. -/
theorem toLowerBytes_append (a b : Bytes) :
    toLowerBytes (a ++ b) = toLowerBytes a ++ toLowerBytes b := List.map_append

/-- The lower-cased phrase begins with a `k`. -/
theorem toLowerBytes_keyPhrase (note mode : Bytes) :
    toLowerBytes (keyPhrase note mode)
      = 0x6B :: toLowerBytes (bytes "ey of " ++ note ++ bytes " " ++ mode) := rfl

/-- The natural note that a note name begins with. -/
def letter (note : Bytes) : Bytes := (toLowerBytes note).take 1

/-- Of all natural notes, the phrase has the one that its note begins with behind `key of`. -/
theorem contains_keyPhrase : ∀ note ∈ noteNames, ∀ mode ∈ modes, ∀ n ∈ naturalNotes,
    contains (toLowerBytes (keyPhrase note mode)) (bytes "key of " ++ n)
      = decide (n = letter note) := by
  decide

/-- No key phrase asks for literal notes. -/
theorem contains_keyPhrase_literal : ∀ note ∈ noteNames, ∀ mode ∈ modes,
    hasLiteralNotes (toLowerBytes (keyPhrase note mode)) = false := by
  decide

/-- The text in front of the phrase adds the notes that it has behind `key of` itself. -/
theorem contains_prompt_iff {note mode : Bytes} (hnote : note ∈ noteNames) (hmode : mode ∈ modes)
    (w : Bytes) {n : Bytes} (hn : n ∈ naturalNotes) :
    contains (toLowerBytes (w ++ keyPhrase note mode)) (bytes "key of " ++ n) = true ↔
      contains (toLowerBytes w) (bytes "key of " ++ n) = true ∨ n = letter note := by
  have hk : ∀ n ∈ naturalNotes, 0x6B ∉ (bytes "key of " ++ n).tail := by decide
  rw [toLowerBytes_append, toLowerBytes_keyPhrase, contains_append_cons (hk n hn),
    ← toLowerBytes_keyPhrase, contains_keyPhrase note hnote mode hmode n hn, decide_eq_true_iff]

/-- Literal notes are asked for in the text in front of the phrase, or not at all. -/
theorem hasLiteralNotes_prompt {note mode : Bytes} (hnote : note ∈ noteNames)
    (hmode : mode ∈ modes) (w : Bytes) :
    hasLiteralNotes (toLowerBytes (w ++ keyPhrase note mode))
      = hasLiteralNotes (toLowerBytes w) := by
  have hk : ∀ pat ∈ literalNotePatterns, 0x6B ∉ pat.tail := by decide
  have hnone := contains_keyPhrase_literal note hnote mode hmode
  rw [hasLiteralNotes, List.any_eq_false] at hnone
  rw [hasLiteralNotes, hasLiteralNotes, Bool.eq_iff_iff, List.any_eq_true, List.any_eq_true,
    toLowerBytes_append, toLowerBytes_keyPhrase]
  apply exists_congr
  intro pat
  apply and_congr_right
  intro hpat
  rw [contains_append_cons (hk pat hpat), ← toLowerBytes_keyPhrase]
  simp [hnone pat hpat]

/-! ### The condition

A phrase is read as it stands when it asks for a natural note and for major, and when its own note
is the first that is found. A text with literal notes is C major before any search begins. -/

/-- The letter of a name is one of the natural notes. -/
theorem letter_mem : ∀ note ∈ noteNames, letter note ∈ naturalNotes := by decide

/-- A natural note in display form is the note name exactly when it is the letter of a natural
note name. -/
theorem ucfirst_eq_iff : ∀ note ∈ noteNames, ∀ n ∈ naturalNotes,
    (ucfirst n = note ↔ note ∈ naturalNotes.map ucfirst ∧ n = toLowerBytes note) := by
  decide

/-- The letter of a natural note is the note. -/
theorem letter_of_natural : ∀ note ∈ naturalNotes.map ucfirst,
    letter note = toLowerBytes note := by
  decide

/-- A prompt with literal notes reads as C major, whatever its key phrase says. -/
theorem readsKey_of_literal {w note mode : Bytes} {seed : Seed} (hnote : note ∈ noteNames)
    (hmode : mode ∈ modes) (h : hasLiteralNotes (toLowerBytes w) = true) :
    ReadsKey w note mode seed ↔ note = bytes "C" ∧ mode = bytes "major" := by
  rw [ReadsKey, interpret, hasLiteralNotes_prompt hnote hmode, h, if_pos rfl]
  exact and_congr eq_comm eq_comm

/-- Without literal notes the first natural note behind `key of` is the key, in major. -/
theorem readsKey_of_not_literal {w note mode : Bytes} {seed : Seed} (hnote : note ∈ noteNames)
    (hmode : mode ∈ modes) (h : hasLiteralNotes (toLowerBytes w) = false) :
    ReadsKey w note mode seed ↔
      ∃ n ∈ naturalNotes, naturalNotes.find? (fun n =>
          contains (toLowerBytes (w ++ keyPhrase note mode)) (bytes "key of " ++ n)) = some n ∧
        ucfirst n = note ∧ mode = bytes "major" := by
  have hletter := (contains_prompt_iff hnote hmode w (letter_mem note hnote)).mpr (Or.inr rfl)
  -- The phrase in the prompt makes the search succeed, with its own letter or an earlier one.
  have hsome : (naturalNotes.find? fun n =>
      contains (toLowerBytes (w ++ keyPhrase note mode)) (bytes "key of " ++ n)).isSome :=
    List.find?_isSome.mpr ⟨letter note, letter_mem note hnote, hletter⟩
  obtain ⟨n, hfind⟩ := Option.isSome_iff_exists.mp hsome
  have hread := detectKeyAndScale_of_find? hfind
  rw [ReadsKey, interpret, hasLiteralNotes_prompt hnote hmode, h, if_neg (by simp)]
  dsimp only
  rw [hread]
  -- What is read is the letter that is found first, always in major.
  constructor
  · rintro ⟨hn, hm⟩
    exact ⟨n, List.mem_of_find?_eq_some hfind, hfind, hn, hm.symm⟩
  · rintro ⟨n', -, hfind', hn, hm⟩
    cases hfind.symm.trans hfind'
    exact ⟨hn, hm.symm⟩

/-- A key phrase behind any text is read as it stands exactly for a readable key. -/
theorem readsKey_iff {note mode : Bytes} (hnote : note ∈ noteNames) (hmode : mode ∈ modes)
    (w : Bytes) (seed : Seed) : ReadsKey w note mode seed ↔ Readable w note mode := by
  rw [Readable]
  cases h : hasLiteralNotes (toLowerBytes w) with
  | true =>
    rw [readsKey_of_literal hnote hmode h, if_pos rfl, and_comm]
  | false =>
    rw [readsKey_of_not_literal hnote hmode h, if_neg (by simp)]
    constructor
    · rintro ⟨n, hn, hfind, hname, hm⟩
      -- The found note has the name of the key, so it is natural and written in lower case.
      obtain ⟨hnatural, rfl⟩ := (ucfirst_eq_iff note hnote n hn).mp hname
      refine ⟨hm, hnatural, fun y hy => ?_⟩
      have hbefore := (find?_eq_some_iff_takeWhile hn (List.find?_some hfind)).mp hfind y hy
      rw [Bool.eq_false_iff] at hbefore ⊢
      have hyn := (List.takeWhile_prefix _).subset hy
      exact fun hcontains =>
        hbefore ((contains_prompt_iff hnote hmode w hyn).mpr (Or.inl hcontains))
    · rintro ⟨hm, hnatural, hbefore⟩
      -- A natural key is among the searched notes, and none before it is in the prompt.
      have hletter := letter_of_natural note hnatural
      have hn : toLowerBytes note ∈ naturalNotes := hletter ▸ letter_mem note hnote
      refine ⟨toLowerBytes note, hn, ?_,
        (ucfirst_eq_iff note hnote _ hn).mpr ⟨hnatural, rfl⟩, hm⟩
      rw [find?_eq_some_iff_takeWhile hn
        ((contains_prompt_iff hnote hmode w hn).mpr (Or.inr hletter.symm))]
      intro y hy
      have hyn := (List.takeWhile_prefix _).subset hy
      have hne : y ≠ toLowerBytes note := by simpa using List.mem_takeWhile_imp hy
      rw [Bool.eq_false_iff, ne_eq, contains_prompt_iff hnote hmode w hyn, hletter]
      simp [hbefore y hy, hne]

/-- `a song in the key of G major`. -/
theorem readsKey_iff_gMajor :
    ReadsKey (bytes "a song in the ") (bytes "G") (bytes "major") 1 ↔
      Readable (bytes "a song in the ") (bytes "G") (bytes "major") :=
  readsKey_iff (by decide) (by decide) _ _

/-- `key of F# major` is read as F major. -/
theorem fSharpMajor_not_readsKey : ¬ ReadsKey [] (bytes "F#") (bytes "major") 1 := by
  rw [readsKey_of_not_literal (by decide) (by decide) (by decide)]
  rintro ⟨n, hn, -, hname, -⟩
  exact absurd ((ucfirst_eq_iff _ (by decide) n hn).mp hname).1 (by decide)

end AiMidi.Proofs.KeyPhrases

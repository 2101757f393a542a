import AzooKey.Core.AppProfileResolver
import AzooKey.Core.RomajiKanaConverter
import AzooKey.Lib.FindText
import AzooKey.Lib.Replaced
import AzooKey.Lib.StreamExtraction

/-!
# Redacting a free text

`RedactFreeText` replaces, pass after pass, the paths of two environment variables, the
names of user directories, and tokens. A pass searches a lower-case copy of the text and
goes on behind each replacement. The results are that a pass replaces ranges of its own
kind and keeps the rest (`redactFreeText_passes`), that its result has none of them left
and that no later pass brings one back (`redactFreeText_free`), and that what has been
redacted stays as it is (`redactFreeText_idempotent`).
-/

namespace AzooKey.Core.Redaction

open AzooKey.Core (isAlpha)
open Bytes (isSpace)

/-! ## The functions of the source -/

/-- `kRedacted`. -/
def redacted : Bytes := utf8 "***redacted***"

/-- `kUserProfile`. -/
def userProfile : Bytes := utf8 "%USERPROFILE%"

/-- `LowerAscii`. -/
def lowerAscii (value : Bytes) : Bytes := value.map Core.lowerAscii

/-- `std::string::replace`. -/
def replaceAt (text : Bytes) (pos count : ℕ) (str : Bytes) : Bytes :=
  text.take pos ++ (str ++ text.drop (pos + count))

/-- A word that is searched. -/
abbrev Word := { word : Bytes // word ≠ [] }

/-- A word that is found stands in the text. -/
theorem le_of_findText {text word : Bytes} {pos i : ℕ} (h : findText text word pos = some i) :
    pos ≤ i ∧ i + word.length ≤ text.length := by
  obtain ⟨hpos, hle, hstands, -⟩ := findText_eq_some_iff.mp h
  have hlength := hstands.length_le
  rw [List.length_drop] at hlength
  omega

@[simp] theorem length_lower (value : Bytes) : (lowerAscii value).length = value.length :=
  List.length_map ..

/-- What is left to search behind a replacement. -/
theorem length_replaceAt {text : Bytes} {pos count : ℕ} (str : Bytes)
    (h : pos + count ≤ text.length) :
    (replaceAt text pos count str).length - (pos + str.length) = text.length - (pos + count) := by
  simp only [replaceAt, List.length_append, List.length_take, List.length_drop]
  omega

/-- The end of the bytes of a kind that begin at a place. -/
def endOf (kind : UInt8 → Bool) (text : Bytes) (pos : ℕ) : ℕ :=
  pos + ((text.drop pos).takeWhile kind).length

/-- They end in the text. -/
theorem endOf_le (kind : UInt8 → Bool) {text : Bytes} {pos : ℕ} (h : pos ≤ text.length) :
    pos ≤ endOf kind text pos ∧ endOf kind text pos ≤ text.length := by
  have hle := (List.takeWhile_sublist kind (l := text.drop pos)).length_le
  rw [List.length_drop] at hle
  unfold endOf
  omega

/-- The loop of `ReplaceCaseInsensitive`. -/
def replaceLoop (needle : Word) (replacement text lowerText : Bytes) (offset : ℕ) : Bytes :=
  match _hfind : findText lowerText (lowerAscii needle) offset with
  | none => text
  | some found =>
    replaceLoop needle replacement (replaceAt text found needle.val.length replacement)
      (replaceAt lowerText found needle.val.length (lowerAscii replacement))
      (found + replacement.length)
termination_by lowerText.length - offset
decreasing_by
  obtain ⟨hle, hfits⟩ := le_of_findText _hfind
  rw [length_lower] at hfits
  have hpos := List.length_pos_of_ne_nil needle.property
  rw [← length_lower replacement, length_replaceAt _ hfits]
  omega

/-- `ReplaceCaseInsensitive`. -/
def replaceCaseInsensitive (text needle replacement : Bytes) : Bytes :=
  if hneedle : needle = [] then text
  else replaceLoop ⟨needle, hneedle⟩ replacement text (lowerAscii text) 0

/-- `EscapeJsonPath`. -/
def escapeJsonPath (path : Bytes) : Bytes :=
  path.flatMap (fun ch => if ch = 0x5c then [0x5c, ch] else [ch])

/-- What `NormalizeWindowsUserProfile` takes for a byte of a user's name. -/
def isUserByte (ch : UInt8) : Bool := ch ≠ 0x5c && ch ≠ 0x2f && ch ≠ 0x22 && !isSpace ch

/-- The inner loop of `NormalizeWindowsUserProfile`, for one of the prefixes. -/
def profileLoop (front : Word) (text : Bytes) (start : ℕ) : Bytes :=
  match _hfind : findText (lowerAscii text) front start with
  | none => text
  | some found =>
    let userStart := found + front.val.length
    if found = 0 ∨ isAlpha (text.getD (found - 1) 0) = false then profileLoop front text userStart
    else
      let userEnd := endOf isUserByte text userStart
      if userEnd = userStart then profileLoop front text userStart
      else
        profileLoop front (replaceAt text (found - 1) (userEnd - (found - 1)) userProfile)
          (found - 1 + userProfile.length)
termination_by text.length - start
decreasing_by
  all_goals
    obtain ⟨hle, hfits⟩ := le_of_findText _hfind
    have hpos := List.length_pos_of_ne_nil front.property
    rw [length_lower] at hfits
  · omega
  · omega
  · obtain ⟨hstart, hend⟩ := endOf_le isUserByte hfits
    rw [length_replaceAt _ (by omega)]
    omega

/-- The prefixes of `NormalizeWindowsUserProfile`. -/
def profilePrefixes : List Word :=
  [⟨utf8 ":\\users\\", by decide⟩, ⟨utf8 ":\\\\users\\\\", by decide⟩,
    ⟨utf8 ":/users/", by decide⟩]

/-- `NormalizeWindowsUserProfile`. -/
def normalizeWindowsUserProfile (text : Bytes) : Bytes :=
  profilePrefixes.foldl (fun text front => profileLoop front text 0) text

/-- What `RedactTokenPrefix` takes for a byte of a token. -/
def isTokenByte (ch : UInt8) : Bool :=
  !isSpace ch && ch ≠ 0x22 && ch ≠ 0x27 && ch ≠ 0x2c && ch ≠ 0x3b

/-- The loop of `RedactTokenPrefix`. -/
def tokenLoop (front : Word) (text : Bytes) (start : ℕ) : Bytes :=
  match _hfind : findText (lowerAscii text) (lowerAscii front) start with
  | none => text
  | some found =>
    let tokenEnd := endOf isTokenByte text (found + front.val.length)
    tokenLoop front (replaceAt text found (tokenEnd - found) redacted) (found + redacted.length)
termination_by text.length - start
decreasing_by
  obtain ⟨hle, hfits⟩ := le_of_findText _hfind
  have hpos := List.length_pos_of_ne_nil front.property
  rw [length_lower, length_lower] at hfits
  obtain ⟨hstart, hend⟩ := endOf_le isTokenByte hfits
  rw [length_replaceAt _ (by omega)]
  omega

/-- `RedactTokenPrefix`. -/
def redactTokenPrefix (text : Bytes) (front : Word) : Bytes := tokenLoop front text 0

/-- The environment variables of `RedactFreeText`, with what their values are replaced by. -/
def paths : List (Bytes × Bytes) :=
  [(utf8 "LOCALAPPDATA", utf8 "%LOCALAPPDATA%"), (utf8 "USERPROFILE", utf8 "%USERPROFILE%")]

/-- The prefixes of tokens. -/
def tokenPrefixes : List Word :=
  [⟨utf8 "sk-", by decide⟩, ⟨utf8 "dpapi:", by decide⟩, ⟨utf8 "Bearer ", by decide⟩]

/-- **`RedactFreeText`**, over what `EnvironmentValue` answers for a name. -/
def redactFreeText (environmentValue : Bytes → Bytes) (text : Bytes) : Bytes :=
  let text := paths.foldl (fun text path =>
    let value := environmentValue path.1
    if value = [] then text
    else
      let text := replaceCaseInsensitive text value path.2
      replaceCaseInsensitive text (escapeJsonPath value) path.2) text
  let text := normalizeWindowsUserProfile text
  tokenPrefixes.foldl redactTokenPrefix text

/-! ## Searching in lower case -/

@[simp] theorem lower_append (a b : Bytes) : lowerAscii (a ++ b) = lowerAscii a ++ lowerAscii b :=
  List.map_append

/-- A word at the head of the lower case is one at the head of the text. -/
theorem prefix_lower_iff {word u : Bytes} :
    word <+: lowerAscii u ↔ ∃ occ tail, u = occ ++ tail ∧ lowerAscii occ = word := by
  constructor
  · intro h
    refine ⟨u.take word.length, u.drop word.length, (List.take_append_drop ..).symm, ?_⟩
    rw [lowerAscii, List.map_take, ← lowerAscii]
    exact (List.prefix_iff_eq_take.mp h).symm
  · rintro ⟨occ, tail, rfl, rfl⟩
    rw [lower_append]
    exact List.prefix_append _ _

/-- What stands behind a place of the text, in lower case. -/
theorem drop_lower (front rest : Bytes) (k : ℕ) :
    (lowerAscii (front ++ rest)).drop (front.length + k) = lowerAscii (rest.drop k) := by
  rw [lower_append, ← length_lower front, ← List.drop_drop, List.drop_left, lowerAscii, lowerAscii,
    List.map_drop]

/-- A word that is not found stands nowhere. -/
theorem not_prefix_of_findText {front rest word : Bytes}
    (h : findText (lowerAscii (front ++ rest)) word front.length = none) {gap u : Bytes}
    (hrest : rest = gap ++ u) : ¬word <+: lowerAscii u := by
  intro hstands
  have hlength : front.length + gap.length ≤ (lowerAscii (front ++ rest)).length := by
    simp only [length_lower, hrest, List.length_append]
    omega
  refine findText_ne_none (Nat.le_add_right _ _) hlength ?_ h
  rw [drop_lower, hrest, List.drop_left]
  exact hstands

/-- **A text is cut at a word that is found.** -/
theorem exists_of_findText_lower {front rest word : Bytes} {found : ℕ}
    (h : findText (lowerAscii (front ++ rest)) word front.length = some found) :
    ∃ gap occ tail, rest = gap ++ (occ ++ tail) ∧ found = front.length + gap.length
      ∧ lowerAscii occ = word
      ∧ ∀ g u, gap = g ++ u → u ≠ [] → ¬word <+: lowerAscii (u ++ (occ ++ tail)) := by
  obtain ⟨hpos, hle, hstands, hbefore⟩ := findText_eq_some_iff.mp h
  obtain ⟨k, rfl⟩ := Nat.exists_eq_add_of_le hpos
  rw [drop_lower] at hstands
  obtain ⟨occ, tail, htail, hocc⟩ := prefix_lower_iff.mp hstands
  have hk : (rest.take k).length = k := by
    rw [length_lower, List.length_append] at hle
    rw [List.length_take]
    omega
  refine ⟨rest.take k, occ, tail, ?_, by rw [hk], hocc, fun g u hgap hne hearlier => ?_⟩
  · rw [← htail, List.take_append_drop]
  · have hrest : rest = g ++ (u ++ (occ ++ tail)) := by
      rw [← List.append_assoc, ← hgap, ← htail, List.take_append_drop]
    have hlength := congrArg List.length hgap
    rw [hk, List.length_append] at hlength
    have hpos := List.length_pos_of_ne_nil hne
    refine hbefore (front.length + g.length) (Nat.le_add_right _ _) (by omega) ?_
    rw [drop_lower, hrest, List.drop_left]
    exact hearlier

/-- A replacement behind a front. -/
theorem replaceAt_append (front r tail str : Bytes) :
    replaceAt (front ++ (r ++ tail)) front.length r.length str = front ++ (str ++ tail) := by
  rw [replaceAt, List.take_left, ← List.drop_drop, List.drop_left, List.drop_left]

/-- A replacement in the text is one in its lower case. -/
theorem lower_replaceAt (text : Bytes) (pos count : ℕ) (str : Bytes) :
    lowerAscii (replaceAt text pos count str)
      = replaceAt (lowerAscii text) pos count (lowerAscii str) := by
  rw [replaceAt, lower_append, lower_append, replaceAt]
  simp only [lowerAscii, List.map_take, List.map_drop]

/-! ## One pass -/

/-- `ReplaceCaseInsensitive`: a word in any letter case. -/
def wordPass (needle replacement : Bytes) : MarkerPass UInt8 where
  trigger u := lowerAscii needle <+: lowerAscii u
  range r _ := lowerAscii r = lowerAscii needle
  marker := replacement

/-- The loop of `NormalizeWindowsUserProfile`: a drive letter, one of the prefixes, and
all of a name that is not empty. -/
def profilePass (front : Bytes) : MarkerPass UInt8 where
  trigger u := ∃ d q n rest, u = d :: (q ++ n :: rest) ∧ isAlpha d = true ∧ lowerAscii q = front
    ∧ isUserByte n = true
  range r rest := ∃ d q name, r = d :: (q ++ name) ∧ isAlpha d = true ∧ lowerAscii q = front
    ∧ name ≠ [] ∧ (∀ n ∈ name, isUserByte n = true) ∧ ∀ n ∈ rest.head?, isUserByte n = false
  marker := userProfile

/-- `RedactTokenPrefix`: one of the prefixes in any letter case, and all of the token
behind it. -/
def tokenPass (front : Bytes) : MarkerPass UInt8 where
  trigger u := lowerAscii front <+: lowerAscii u
  range r rest := ∃ q token, r = q ++ token ∧ lowerAscii q = lowerAscii front
    ∧ (∀ ch ∈ token, isTokenByte ch = true) ∧ ∀ ch ∈ rest.head?, isTokenByte ch = false
  marker := redacted

/-- The loop of `ReplaceCaseInsensitive` does its pass behind what it has passed. -/
theorem replaceLoop_does (needle : Word) (replacement front rest : Bytes) :
    ∃ result, replaceLoop needle replacement (front ++ rest) (lowerAscii (front ++ rest))
          front.length = front ++ result
      ∧ (wordPass needle replacement).Does rest result := by
  induction hn : rest.length using Nat.strong_induction_on generalizing front rest with
  | _ n ih =>
    subst hn
    unfold replaceLoop
    split
    · rename_i hfind
      refine ⟨rest, rfl, Replaced.rfl_of_kept fun gap u hrest _ => ?_⟩
      exact not_prefix_of_findText hfind hrest
    · rename_i found hfind
      obtain ⟨gap, occ, tail, rfl, rfl, hocc, hgap⟩ := exists_of_findText_lower hfind
      have hlength : needle.val.length = occ.length := by
        rw [← length_lower needle.val, ← hocc, length_lower]
      have hpos := List.length_pos_of_ne_nil needle.property
      have htext : replaceAt (front ++ (gap ++ (occ ++ tail))) (front.length + gap.length)
          needle.val.length replacement = (front ++ (gap ++ replacement)) ++ tail := by
        rw [hlength, ← List.append_assoc front gap, ← List.length_append, replaceAt_append]
        simp only [List.append_assoc]
      have hplace : front.length + gap.length + replacement.length
          = (front ++ (gap ++ replacement)).length := by
        simp only [List.length_append]
        omega
      obtain ⟨result, hresult, hdoes⟩ := ih tail.length
        (by simp only [List.length_append]; omega) (front ++ (gap ++ replacement)) tail rfl
      rw [← lower_replaceAt, htext, hplace, hresult]
      refine ⟨gap ++ (replacement ++ result), by simp only [List.append_assoc], ?_⟩
      exact Replaced.keep_append (fun g u heq hne => hgap g u heq hne) (.replace hocc hdoes)

/-- **`ReplaceCaseInsensitive`** does its pass. -/
theorem replaceCaseInsensitive_does (text replacement : Bytes) (needle : Word) :
    (wordPass needle replacement).Does text (replaceCaseInsensitive text needle replacement) := by
  obtain ⟨result, hresult, hdoes⟩ := replaceLoop_does needle replacement [] text
  rw [replaceCaseInsensitive, dif_neg needle.property]
  exact hresult ▸ hdoes

/-- The bytes of a kind behind a word end where others begin. -/
theorem endOf_append (kind : UInt8 → Bool) (base occ tail : Bytes) :
    endOf kind (base ++ (occ ++ tail)) (base.length + occ.length)
      = base.length + (occ ++ tail.takeWhile kind).length := by
  rw [endOf, ← List.append_assoc, ← List.length_append, List.drop_left, List.length_append,
    List.length_append, Nat.add_assoc]

/-- A replacement of a word and of the bytes of a kind behind it. -/
theorem replaceAt_endOf (kind : UInt8 → Bool) (base occ tail str : Bytes) :
    replaceAt (base ++ (occ ++ tail)) base.length
      (endOf kind (base ++ (occ ++ tail)) (base.length + occ.length) - base.length) str
      = base ++ (str ++ tail.dropWhile kind) := by
  have htail : occ ++ tail = (occ ++ tail.takeWhile kind) ++ tail.dropWhile kind := by
    rw [List.append_assoc, List.takeWhile_append_dropWhile]
  rw [endOf_append, Nat.add_sub_cancel_left, htail, replaceAt_append]

/-- What follows the bytes of a kind begins with none. -/
theorem head?_dropWhile_kind (kind : UInt8 → Bool) (tail : Bytes) :
    ∀ ch ∈ (tail.dropWhile kind).head?, kind ch = false := by
  intro ch hch
  have hhead := List.head?_dropWhile_not kind tail
  rw [hch] at hhead
  exact hhead

/-- The loop of `RedactTokenPrefix` does its pass behind what it has passed. -/
theorem tokenLoop_does (word : Word) (front rest : Bytes) :
    ∃ result, tokenLoop word (front ++ rest) front.length = front ++ result
      ∧ (tokenPass word).Does rest result := by
  induction hn : rest.length using Nat.strong_induction_on generalizing front rest with
  | _ n ih =>
    subst hn
    unfold tokenLoop
    split
    · rename_i hfind
      refine ⟨rest, rfl, Replaced.rfl_of_kept fun gap u hrest _ => ?_⟩
      exact not_prefix_of_findText hfind hrest
    · rename_i found hfind
      obtain ⟨gap, occ, tail, rfl, rfl, hocc, hgap⟩ := exists_of_findText_lower hfind
      have hlength : word.val.length = occ.length := by
        rw [← length_lower word.val, ← hocc, length_lower]
      have hpos := List.length_pos_of_ne_nil word.property
      have hplace : front.length + gap.length + redacted.length
          = (front ++ (gap ++ redacted)).length := by
        simp only [List.length_append]
        omega
      have hshorter := (List.dropWhile_sublist isTokenByte (l := tail)).length_le
      obtain ⟨result, hresult, hdoes⟩ := ih (tail.dropWhile isTokenByte).length
        (by simp only [List.length_append]; omega) (front ++ (gap ++ redacted)) _ rfl
      have htext := replaceAt_endOf isTokenByte (front ++ gap) occ tail redacted
      have hrange : (tokenPass word).Does (occ ++ tail) (redacted ++ result) := by
        have hreplaced := Replaced.replace (⟨occ, tail.takeWhile isTokenByte, rfl, hocc,
          fun ch hch => List.mem_takeWhile_imp hch, head?_dropWhile_kind isTokenByte tail⟩ :
          (tokenPass word).range (occ ++ tail.takeWhile isTokenByte) (tail.dropWhile isTokenByte))
          hdoes
        rwa [List.append_assoc, List.takeWhile_append_dropWhile] at hreplaced
      simp only [List.append_assoc, List.length_append] at htext hresult
      dsimp only
      rw [hlength, htext, Nat.add_assoc, hresult]
      exact ⟨gap ++ (redacted ++ result), rfl, Replaced.keep_append hgap hrange⟩

/-- **`RedactTokenPrefix`** does its pass. -/
theorem redactTokenPrefix_does (text : Bytes) (word : Word) :
    (tokenPass word).Does text (redactTokenPrefix text word) := by
  obtain ⟨result, hresult, hdoes⟩ := tokenLoop_does word [] text
  exact (show redactTokenPrefix text word = result from hresult) ▸ hdoes

/-! ## The pass over user directories -/

/-- What the prefixes of `NormalizeWindowsUserProfile` have in common: a colon at the head
only, and no letter at the end. -/
structure IsProfilePrefix (word : Bytes) : Prop where
  head : ∃ tail, word = 0x3a :: tail ∧ 0x3a ∉ tail
  last : ∀ ch ∈ word.getLast?, isAlpha ch = false

/-- A letter is one in lower case. -/
theorem isAlpha_lowerAscii (ch : UInt8) : isAlpha (Core.lowerAscii ch) = isAlpha ch := by
  unfold Core.lowerAscii
  split
  · rename_i h
    simp only [isAlpha, Bool.and_eq_true, decide_eq_true_eq, UInt8.le_iff_toNat_le] at h ⊢
    have hsum : (ch + 0x20).toNat = ch.toNat + 0x20 := by
      rw [UInt8.toNat_add]
      exact Nat.mod_eq_of_lt (by have := h.2; simp at this ⊢; omega)
    rw [hsum, Bool.eq_iff_iff]
    simp at h ⊢
    omega
  · rfl

/-- No place inside a prefix is a drive letter in front of another one. -/
theorem not_profile_trigger_inside {word occ tail : Bytes} (hword : IsProfilePrefix word)
    (hocc : lowerAscii occ = word) {g u : Bytes} (hsplit : occ = g ++ u) (hne : u ≠ []) :
    ¬(profilePass word).trigger (u ++ tail) := by
  rintro ⟨d, q, n, rest, heq, hd, hq, -⟩
  obtain ⟨word', rfl, hcolon⟩ := hword.head
  cases u with
  | nil => exact absurd rfl hne
  | cons c u =>
    obtain ⟨rfl, hrest⟩ := List.cons.inj heq
    cases u with
    | nil =>
      -- the last byte of the prefix is no letter
      have hlast : Core.lowerAscii c ∈ (lowerAscii occ).getLast? := by
        rw [hsplit, lowerAscii, List.map_append, List.map_singleton, List.getLast?_concat]
        rfl
      have hnot := hword.last _ (hocc ▸ hlast)
      rw [isAlpha_lowerAscii, hd] at hnot
      cases hnot
    | cons c' u =>
      -- there is no other colon in it
      have hc : Core.lowerAscii c' = 0x3a := by
        cases q with
        | nil => cases hq
        | cons x q =>
          exact (List.cons.inj hrest).1 ▸ (List.cons.inj hq).1
      have hmem : Core.lowerAscii c' ∈ word' := by
        rw [hsplit, lowerAscii, List.map_append] at hocc
        cases g with
        | nil => exact (List.cons.inj hocc).2 ▸ List.mem_cons_self
        | cons y g =>
          rw [← (List.cons.inj hocc).2]
          simp
      exact hcolon (hc ▸ hmem)

/-- No place in front of a prefix is a drive letter, but the one next to it. -/
theorem not_profile_trigger_before {word gap rest : Bytes}
    (hgap : ∀ g u, gap = g ++ u → u ≠ [] → ¬word <+: lowerAscii (u ++ rest)) {g u : Bytes}
    {c : UInt8} (hsplit : gap = g ++ (c :: u)) (hne : u ≠ []) :
    ¬(profilePass word).trigger (c :: u ++ rest) := by
  rintro ⟨d, q, n, tail, heq, -, hq, -⟩
  refine hgap (g ++ [c]) u (by rw [hsplit, List.append_assoc]; rfl) hne ?_
  rw [prefix_lower_iff]
  exact ⟨q, n :: tail, (List.cons.inj heq).2, hq⟩

/-- The byte in front of a place. -/
theorem getD_append_concat (front rest : Bytes) (d : UInt8) :
    (front ++ [d] ++ rest).getD ((front ++ [d]).length - 1) 0 = d := by
  rw [List.length_append, List.length_singleton, Nat.add_sub_cancel, List.append_assoc,
    List.getD_append_right _ _ _ _ le_rfl, Nat.sub_self]
  rfl

/-- What ends with a prefix does not end with a letter. -/
theorem getLast?_append_found {word occ : Bytes} (hword : IsProfilePrefix word)
    (hocc : lowerAscii occ = word) (base : Bytes) :
    ∀ ch ∈ (base ++ occ).getLast?, isAlpha ch = false := by
  intro ch hch
  rcases List.eq_nil_or_concat occ with rfl | ⟨occ, c, rfl⟩
  · obtain ⟨tail, rfl, -⟩ := hword.head
    cases hocc
  · rw [List.concat_eq_append, ← List.append_assoc, List.getLast?_concat] at hch
    obtain rfl := Option.some.inj hch
    have hlast : Core.lowerAscii c ∈ (lowerAscii (occ.concat c)).getLast? := by
      rw [List.concat_eq_append, lowerAscii, List.map_append, List.map_singleton,
        List.getLast?_concat]
      rfl
    rw [← isAlpha_lowerAscii]
    exact hword.last _ (hocc ▸ hlast)

/-- A prefix that is passed, with what stands in front of it, is kept. -/
theorem profile_keep {word gap occ tail result : Bytes} (hword : IsProfilePrefix word)
    (hocc : lowerAscii occ = word)
    (hgap : ∀ g u, gap = g ++ u → u ≠ [] → ¬word <+: lowerAscii (u ++ (occ ++ tail)))
    (hnext : ∀ g d, gap = g ++ [d] → ¬(profilePass word).trigger (d :: (occ ++ tail)))
    (hdoes : (profilePass word).Does tail result) :
    (profilePass word).Does (gap ++ (occ ++ tail)) (gap ++ (occ ++ result)) := by
  refine Replaced.keep_append (fun g u hsplit hne => ?_) (Replaced.keep_append
    (fun g u hsplit hne => not_profile_trigger_inside hword hocc hsplit hne) hdoes)
  cases u with
  | nil => exact absurd rfl hne
  | cons c u =>
    by_cases hu : u = []
    · rw [hu] at hsplit ⊢
      exact hnext g c hsplit
    · exact not_profile_trigger_before hgap hsplit hu

/-- A user directory is replaced, and what stands in front of it is kept. -/
theorem profile_replace {word g occ tail result : Bytes} {d : UInt8} (hocc : lowerAscii occ = word)
    (hgap : ∀ g' u, g ++ [d] = g' ++ u → u ≠ [] → ¬word <+: lowerAscii (u ++ (occ ++ tail)))
    (hd : isAlpha d = true) (hname : tail.takeWhile isUserByte ≠ [])
    (hdoes : (profilePass word).Does (tail.dropWhile isUserByte) result) :
    (profilePass word).Does (g ++ (d :: (occ ++ tail))) (g ++ (userProfile ++ result)) := by
  have hrange : (profilePass word).Does (d :: (occ ++ tail)) (userProfile ++ result) := by
    have hreplaced := Replaced.replace (⟨d, occ, tail.takeWhile isUserByte, rfl, hd, hocc,
      hname, fun n hn => List.mem_takeWhile_imp hn, head?_dropWhile_kind isUserByte tail⟩ :
      (profilePass word).range (d :: (occ ++ tail.takeWhile isUserByte))
        (tail.dropWhile isUserByte)) hdoes
    rwa [List.cons_append, List.append_assoc, List.takeWhile_append_dropWhile] at hreplaced
  refine Replaced.keep_append (fun g' u hsplit hne => ?_) hrange
  cases u with
  | nil => exact absurd rfl hne
  | cons c u =>
    have hbefore := @not_profile_trigger_before word (g ++ [d]) (occ ++ tail) hgap g' (u ++ [d]) c
      (by rw [hsplit]; simp) (by simp)
    simpa only [List.append_assoc, List.cons_append, List.nil_append] using hbefore

/-- A letter in front of a prefix is behind what has been passed, which does not end with
one. -/
theorem exists_of_letter {front gap rest : Bytes}
    (hfront : ∀ ch ∈ front.getLast?, isAlpha ch = false)
    (hnonzero : front.length + gap.length ≠ 0)
    (hletter : isAlpha ((front ++ (gap ++ rest)).getD (front.length + gap.length - 1) 0) ≠ false) :
    ∃ g d, gap = g ++ [d] ∧ isAlpha d = true := by
  rcases List.eq_nil_or_concat gap with rfl | ⟨g, d, rfl⟩
  · exfalso
    rcases List.eq_nil_or_concat front with rfl | ⟨front, c, rfl⟩
    · exact hnonzero rfl
    · have hbyte := getD_append_concat front rest c
      rw [List.concat_eq_append] at hletter hfront
      rw [List.nil_append, List.length_nil, Nat.add_zero, hbyte] at hletter
      exact hletter (hfront c (by rw [List.getLast?_concat]; rfl))
  · have hbyte := getD_append_concat (front ++ g) rest d
    simp only [List.concat_eq_append, List.append_assoc, List.length_append] at hbyte hletter
    rw [hbyte] at hletter
    exact ⟨g, d, List.concat_eq_append, Bool.eq_true_of_not_eq_false hletter⟩

/-- What has been passed does not end with a letter behind a replacement. -/
theorem getLast?_append_userProfile (front : Bytes) :
    ∀ ch ∈ (front ++ userProfile).getLast?, isAlpha ch = false := by
  intro ch hch
  rw [show userProfile = utf8 "%USERPROFILE" ++ [0x25] from rfl, ← List.append_assoc,
    List.getLast?_concat] at hch
  obtain rfl := Option.some.inj hch
  decide

/-- The loop of `NormalizeWindowsUserProfile` does its pass behind what it has passed. What
has been passed does not end with a letter. -/
theorem profileLoop_does {word : Word} (hword : IsProfilePrefix word) (front rest : Bytes)
    (hfront : ∀ ch ∈ front.getLast?, isAlpha ch = false) :
    ∃ result, profileLoop word (front ++ rest) front.length = front ++ result
      ∧ (profilePass word).Does rest result := by
  induction hn : rest.length using Nat.strong_induction_on generalizing front rest with
  | _ n ih =>
    subst hn
    unfold profileLoop
    split
    · rename_i hfind
      refine ⟨rest, rfl, Replaced.rfl_of_kept fun gap u hrest hne => ?_⟩
      rintro ⟨d, q, n, tail, rfl, -, hq, -⟩
      have hrest' : rest = (gap ++ [d]) ++ (q ++ n :: tail) := by
        rw [hrest, List.append_assoc]
        rfl
      exact not_prefix_of_findText hfind hrest' (prefix_lower_iff.mpr ⟨q, n :: tail, rfl, hq⟩)
    · rename_i found hfind
      obtain ⟨gap, occ, tail, rfl, rfl, hocc, hgap⟩ := exists_of_findText_lower hfind
      have hlength : word.val.length = occ.length := by
        rw [← hocc, length_lower]
      have hpos := List.length_pos_of_ne_nil word.property
      -- the turns that replace nothing pass the prefix
      have hskip : (∀ g d, gap = g ++ [d] → ¬(profilePass word).trigger (d :: (occ ++ tail))) →
          ∃ result, profileLoop word (front ++ (gap ++ (occ ++ tail)))
              (front.length + gap.length + occ.length) = front ++ result
            ∧ (profilePass word).Does (gap ++ (occ ++ tail)) result := by
        intro hnext
        obtain ⟨result, hresult, hdoes⟩ := ih tail.length
          (by simp only [List.length_append]; omega) (front ++ gap ++ occ) tail
          (getLast?_append_found hword hocc _) rfl
        simp only [List.append_assoc, List.length_append] at hresult
        rw [Nat.add_assoc, hresult]
        exact ⟨_, rfl, profile_keep hword hocc hgap hnext hdoes⟩
      dsimp only
      rw [hlength]
      split
      · rename_i hfirst
        refine hskip fun g d hsplit => ?_
        rintro ⟨d', q, n, rest', heq, hd, -, -⟩
        obtain ⟨rfl, -⟩ := List.cons.inj heq
        subst hsplit
        rcases hfirst with hzero | hletter
        · simp at hzero
        · have hbyte := getD_append_concat (front ++ g) (occ ++ tail) d
          simp only [List.append_assoc, List.length_append] at hbyte hletter
          rw [hbyte, hd] at hletter
          cases hletter
      rename_i hfirst
      obtain ⟨hnonzero, hletter⟩ := not_or.mp hfirst
      obtain ⟨g, d, rfl, hd⟩ := exists_of_letter hfront hnonzero hletter
      have hend := endOf_append isUserByte (front ++ (g ++ [d])) occ tail
      simp only [List.append_assoc, List.length_append, List.length_singleton] at hend hskip ⊢
      split
      · rename_i hnobody
        refine hskip fun g' d' _ => ?_
        rintro ⟨d'', q, n, rest', heq, -, hq, hn⟩
        have hsame : occ.length = q.length := by
          rw [← hlength, ← hq, length_lower]
        obtain ⟨-, rfl⟩ := List.append_inj (List.cons.inj heq).2 hsame
        rw [hend, List.takeWhile_cons_of_pos hn, List.length_cons] at hnobody
        omega
      · rename_i hname
        have hname' : tail.takeWhile isUserByte ≠ [] := by
          intro hnil
          rw [hend, hnil] at hname
          exact hname rfl
        have hshorter := (List.dropWhile_sublist isUserByte (l := tail)).length_le
        obtain ⟨result, hresult, hdoes⟩ := ih (tail.dropWhile isUserByte).length
          (by simp only [List.length_append]; omega) (front ++ g ++ userProfile) _
          (getLast?_append_userProfile _) rfl
        have htext := replaceAt_endOf isUserByte (front ++ g) (d :: occ) tail userProfile
        have hstart : front.length + (g.length + 1) - 1 = front.length + g.length := by omega
        have hplace : front.length + (g.length + 1) + occ.length
            = front.length + g.length + (d :: occ).length := by
          rw [List.length_cons]
          omega
        simp only [List.append_assoc, List.length_append, List.cons_append, List.nil_append]
          at htext hresult ⊢
        rw [hstart, hplace, htext, Nat.add_assoc, hresult]
        exact ⟨g ++ (userProfile ++ result), rfl, profile_replace hocc hgap hd hname' hdoes⟩

/-! ## All the passes -/

/-- The passes over the value of an environment variable. -/
def pathPasses (value replacement : Bytes) : List (MarkerPass UInt8) :=
  if value = [] then []
  else [wordPass value replacement, wordPass (escapeJsonPath value) replacement]

/-- The passes over user directories and tokens. -/
def fixedPasses : List (MarkerPass UInt8) :=
  profilePrefixes.flatMap (fun word : Word => [profilePass word])
    ++ tokenPrefixes.flatMap (fun word : Word => [tokenPass word])

/-- The passes of `RedactFreeText`. -/
def passes (environmentValue : Bytes → Bytes) : List (MarkerPass UInt8) :=
  paths.flatMap (fun path => pathPasses (environmentValue path.1) path.2) ++ fixedPasses

/-- The prefixes of user directories are of the kind the loop is made for. -/
theorem isProfilePrefix_of_mem : ∀ word ∈ profilePrefixes, IsProfilePrefix word := by
  intro word hword
  rcases List.mem_cons.mp hword with rfl | hword
  · exact ⟨⟨utf8 "\\users\\", rfl, by decide⟩, fun ch hch => Option.some.inj hch ▸ by decide⟩
  rcases List.mem_cons.mp hword with rfl | hword
  · exact ⟨⟨utf8 "\\\\users\\\\", rfl, by decide⟩, fun ch hch => Option.some.inj hch ▸ by decide⟩
  obtain rfl := List.mem_singleton.mp hword
  exact ⟨⟨utf8 "/users/", rfl, by decide⟩, fun ch hch => Option.some.inj hch ▸ by decide⟩

/-- A path that is not empty is written as one that is not. -/
theorem escapeJsonPath_ne_nil {path : Bytes} (h : path ≠ []) : escapeJsonPath path ≠ [] := by
  cases path with
  | nil => exact absurd rfl h
  | cons ch path =>
    rw [escapeJsonPath, List.flatMap_cons]
    split <;> exact List.cons_ne_nil _ _

/-- **`RedactFreeText`** does its passes, one after the other. -/
theorem redactFreeText_passes (environmentValue : Bytes → Bytes) (text : Bytes) :
    Passes (passes environmentValue) text (redactFreeText environmentValue text) := by
  refine Passes.append (Passes.foldl (fun path _ text => ?_) text)
    (Passes.append (Passes.foldl (fun word hword text => ?_) _)
      (Passes.foldl (fun word _ text => ?_) _))
  · dsimp only
    unfold pathPasses
    split
    · exact .nil
    · rename_i hvalue
      have hescaped := escapeJsonPath_ne_nil hvalue
      exact .cons (replaceCaseInsensitive_does text path.2 ⟨_, hvalue⟩)
        (.cons (replaceCaseInsensitive_does _ path.2 ⟨_, hescaped⟩) .nil)
  · refine .cons ?_ .nil
    obtain ⟨result, hresult, hdoes⟩ := profileLoop_does (isProfilePrefix_of_mem word hword) [] text
      (fun ch hch => by cases hch)
    exact (show profileLoop word text 0 = result from hresult) ▸ hdoes
  · exact .cons (redactTokenPrefix_does text word) .nil

/-! ## What is not there any more -/

/-- The bytes at the ends of what is replaced by. -/
def isBar (ch : UInt8) : Prop := ch = 0x25 ∨ ch = 0x2a

/-- What the passes replace by. -/
def markers : List Bytes := [utf8 "%LOCALAPPDATA%", userProfile, redacted]

/-- A byte that is no letter is its own lower case, and no other's. -/
theorem lowerAscii_eq_iff {ch c : UInt8} (hc : isAlpha c = false) :
    Core.lowerAscii ch = c ↔ ch = c := by
  have hself : ∀ ch, isAlpha ch = false → Core.lowerAscii ch = ch := by
    intro ch hch
    refine if_neg fun hupper => ?_
    rw [isAlpha, hupper] at hch
    cases hch
  constructor
  · intro h
    have hch : isAlpha ch = false := by rw [← isAlpha_lowerAscii, h, hc]
    rw [← h, hself ch hch]
  · rintro rfl
    exact hself ch hc

/-- A bar is one in lower case. -/
theorem isBar_lowerAscii (ch : UInt8) : isBar (Core.lowerAscii ch) ↔ isBar ch :=
  or_congr (lowerAscii_eq_iff (by decide)) (lowerAscii_eq_iff (by decide))

/-- A word without bars has none in lower case, and the other way round. -/
theorem bars_lower (w : Bytes) : (∀ ch ∈ lowerAscii w, ¬isBar ch) ↔ ∀ ch ∈ w, ¬isBar ch := by
  simp only [lowerAscii, List.forall_mem_map, isBar_lowerAscii]

/-- A marker is one. -/
theorem isMarker_of_mem : ∀ marker ∈ markers, IsMarker isBar marker := by
  intro marker hmarker
  rcases List.mem_cons.mp hmarker with rfl | hmarker
  · exact ⟨0x25, utf8 "LOCALAPPDATA", 0x25, rfl, .inl rfl, .inl rfl⟩
  rcases List.mem_cons.mp hmarker with rfl | hmarker
  · exact ⟨0x25, utf8 "USERPROFILE", 0x25, rfl, .inl rfl, .inl rfl⟩
  obtain rfl := List.mem_singleton.mp hmarker
  exact ⟨0x2a, utf8 "**redacted**", 0x2a, rfl, .inr rfl, .inr rfl⟩

/-- A word without bars that is in no marker is solid. -/
theorem solid_word {w marker : Bytes} (hne : w ≠ []) (hbar : ∀ ch ∈ w, ¬isBar ch)
    (hnot : ¬lowerAscii w <:+: lowerAscii marker) (range : Bytes → Bytes → Prop) :
    Solid isBar (fun u => lowerAscii w <+: lowerAscii u) range marker := by
  intro u hstands
  obtain ⟨occ, tail, rfl, hocc⟩ := prefix_lower_iff.mp hstands
  refine ⟨occ, tail, rfl, ?_, ?_, fun hinside => hnot ?_, fun _ t' _ => ?_⟩
  · rintro rfl
    exact hne (List.map_eq_nil_iff.mp hocc.symm)
  · rw [← bars_lower, hocc, bars_lower]
    exact hbar
  · rw [← hocc]
    exact hinside.map _
  · exact prefix_lower_iff.mpr ⟨occ, t', rfl, hocc⟩

/-- A letter may stand in a user's name. -/
theorem isUserByte_of_isAlpha {ch : UInt8} (h : isAlpha ch = true) : isUserByte ch = true := by
  simp only [isAlpha, Bool.or_eq_true, Bool.and_eq_true, decide_eq_true_eq,
    UInt8.le_iff_toNat_le] at h
  simp [isUserByte, isSpace, UInt8.le_iff_toNat_le, ← UInt8.toNat_inj] at h ⊢
  omega

/-- A user directory is solid against replacements that begin with a byte of a name. -/
theorem solid_profile {word marker : Bytes} (hword : IsProfilePrefix word)
    (hbar : ∀ ch ∈ word, ¬isBar ch) (hcolon : 0x3a ∉ marker) {range : Bytes → Bytes → Prop}
    (hrange : ∀ r rest, range r rest → ∃ c r', r = c :: r' ∧ isUserByte c = true) :
    Solid isBar (profilePass word).trigger range marker := by
  rintro u ⟨d, q, n, rest, rfl, hd, hq, hn⟩
  refine ⟨d :: q, n :: rest, rfl, List.cons_ne_nil _ _, ?_, fun hinside => hcolon ?_, ?_⟩
  · refine List.forall_mem_cons.mpr ⟨?_, ?_⟩
    · rintro (rfl | rfl) <;> cases hd
    · rw [← bars_lower, hq]
      exact hbar
  · obtain ⟨tail, rfl, -⟩ := hword.head
    cases q with
    | nil => cases hq
    | cons c q =>
      have hc := (lowerAscii_eq_iff (by decide)).mp (List.cons.inj hq).1
      exact hinside.subset (by rw [hc]; simp)
  · intro kept t' hreplaced
    rcases hreplaced.head_eq with ⟨t'', rfl⟩ | ⟨r, t'', rfl, hr⟩
    · exact ⟨d, q, n, t'', rfl, hd, hq, hn⟩
    · obtain ⟨c, r', rfl, hc⟩ := hrange r t'' hr
      exact ⟨d, q, c, r' ++ t'', rfl, hd, hq, hc⟩

/-- The passes over user directories and tokens replace what begins with a letter. -/
theorem head_of_fixedPasses : ∀ q ∈ fixedPasses, ∀ r rest, q.range r rest →
    ∃ c r', r = c :: r' ∧ isUserByte c = true := by
  intro q hq r rest hrange
  rcases List.mem_append.mp hq with hq | hq
  · obtain ⟨word, -, hword⟩ := List.mem_flatMap.mp hq
    obtain rfl := List.mem_singleton.mp hword
    obtain ⟨d, q, name, rfl, hd, -⟩ := hrange
    exact ⟨d, _, rfl, isUserByte_of_isAlpha hd⟩
  · obtain ⟨word, hmem, hword⟩ := List.mem_flatMap.mp hq
    obtain rfl := List.mem_singleton.mp hword
    obtain ⟨q, token, rfl, hlower, -⟩ := hrange
    have hletter : ∃ c w, lowerAscii word = c :: w ∧ isAlpha c = true := by
      rcases List.mem_cons.mp hmem with rfl | hmem
      · exact ⟨0x73, utf8 "k-", rfl, rfl⟩
      rcases List.mem_cons.mp hmem with rfl | hmem
      · exact ⟨0x64, utf8 "papi:", rfl, rfl⟩
      obtain rfl := List.mem_singleton.mp hmem
      exact ⟨0x62, utf8 "earer ", rfl, rfl⟩
    obtain ⟨c, w, hw, hc⟩ := hletter
    rw [hw] at hlower
    cases q with
    | nil => cases hlower
    | cons x q =>
      obtain ⟨hx, -⟩ := List.cons.inj hlower
      refine ⟨x, _, rfl, isUserByte_of_isAlpha ?_⟩
      rw [← isAlpha_lowerAscii, hx, hc]

/-- What passes over paths replace by, and those over user directories and tokens. -/
def markersOf (paths : List (Bytes × Bytes)) : List Bytes :=
  paths.map Prod.snd ++ [userProfile, redacted]

/-- Every pass replaces by one of its markers. -/
theorem marker_of_passes {environmentValue : Bytes → Bytes} {paths : List (Bytes × Bytes)} :
    ∀ q ∈ paths.flatMap (fun path => pathPasses (environmentValue path.1) path.2) ++ fixedPasses,
      q.marker ∈ markersOf paths := by
  intro q hq
  rcases List.mem_append.mp hq with hq | hq
  · obtain ⟨path, hpath, hq⟩ := List.mem_flatMap.mp hq
    have hmarker : q.marker = path.2 := by
      unfold pathPasses at hq
      split at hq
      · cases hq
      · rcases List.mem_cons.mp hq with rfl | hq
        · rfl
        · obtain rfl := List.mem_singleton.mp hq
          rfl
    rw [hmarker]
    exact List.mem_append_left _ (List.mem_map_of_mem hpath)
  · refine List.mem_append_right _ ?_
    rcases List.mem_append.mp hq with hq | hq
    · obtain ⟨word, -, hword⟩ := List.mem_flatMap.mp hq
      obtain rfl := List.mem_singleton.mp hword
      exact List.mem_cons_self
    · obtain ⟨word, -, hword⟩ := List.mem_flatMap.mp hq
      obtain rfl := List.mem_singleton.mp hword
      exact List.mem_cons_of_mem _ List.mem_cons_self

/-- These are some of the markers. -/
theorem mem_markers_of_markersOf {some : List (Bytes × Bytes)} (h : ∀ path ∈ some, path ∈ paths) :
    ∀ marker ∈ markersOf some, marker ∈ markers := by
  intro marker hmarker
  rcases List.mem_append.mp hmarker with hmarker | hmarker
  · obtain ⟨path, hpath, rfl⟩ := List.mem_map.mp hmarker
    rcases List.mem_cons.mp (h path hpath) with rfl | hpath
    · exact List.mem_cons_self
    · obtain rfl := List.mem_singleton.mp hpath
      exact List.mem_cons_of_mem _ List.mem_cons_self
  · exact List.mem_cons_of_mem _ hmarker

/-- A pass finds its trigger at each of its ranges. -/
theorem trigger_of_range {environmentValue : Bytes → Bytes} :
    ∀ q ∈ passes environmentValue, ∀ r rest, q.range r rest → q.trigger (r ++ rest) := by
  have hword : ∀ (w m r rest : Bytes), (wordPass w m).range r rest →
      (wordPass w m).trigger (r ++ rest) := fun w m r rest hr =>
    prefix_lower_iff.mpr ⟨r, rest, rfl, hr⟩
  intro q hq r rest hr
  rcases List.mem_append.mp hq with hq | hq
  · obtain ⟨path, hpath, hq⟩ := List.mem_flatMap.mp hq
    unfold pathPasses at hq
    split at hq
    · cases hq
    · rcases List.mem_cons.mp hq with rfl | hq
      · exact hword _ _ r rest hr
      · obtain rfl := List.mem_singleton.mp hq
        exact hword _ _ r rest hr
  rcases List.mem_append.mp hq with hq | hq
  · obtain ⟨word, -, hword⟩ := List.mem_flatMap.mp hq
    obtain rfl := List.mem_singleton.mp hword
    obtain ⟨d, q, name, rfl, hd, hq, hne, hname, -⟩ := hr
    obtain ⟨n, name, rfl⟩ := List.exists_cons_of_ne_nil hne
    refine ⟨d, q, n, name ++ rest, ?_, hd, hq, hname n List.mem_cons_self⟩
    rw [List.cons_append, List.append_assoc]
    rfl
  · obtain ⟨word, -, hword⟩ := List.mem_flatMap.mp hq
    obtain rfl := List.mem_singleton.mp hword
    obtain ⟨q, token, rfl, hq, -⟩ := hr
    exact prefix_lower_iff.mpr ⟨q, token ++ rest, List.append_assoc .., hq⟩

/-- The path of a variable, and those whose passes come behind its own. -/
def pathsFrom (name : Bytes) : List (Bytes × Bytes) := paths.dropWhile (fun path => path.1 ≠ name)

/-- These are some of the paths. -/
theorem mem_paths_of_pathsFrom {name : Bytes} : ∀ path ∈ pathsFrom name, path ∈ paths :=
  fun _ hpath => (List.dropWhile_suffix _).subset hpath

/-- A value of a variable that no pass from its own on can make: it has no bar, and is in
none of their markers. -/
def Plain (name value : Bytes) : Prop :=
  (∀ ch ∈ value, ¬isBar ch)
    ∧ ∀ marker ∈ markersOf (pathsFrom name), ¬lowerAscii value <:+: lowerAscii marker

/-- A plain value is not empty. -/
theorem Plain.ne_nil {name value : Bytes} (h : Plain name value) : value ≠ [] := by
  rintro rfl
  refine h.2 redacted (List.mem_append_right _ ?_) ⟨[], lowerAscii redacted, rfl⟩
  exact List.mem_cons_of_mem _ List.mem_cons_self

/-- A path without a backslash is spelled as it is. -/
theorem escapeJsonPath_of_not_mem {path : Bytes} (h : (0x5c : UInt8) ∉ path) :
    escapeJsonPath path = path := by
  induction path with
  | nil => rfl
  | cons ch path ih =>
    obtain ⟨hch, hpath⟩ := not_or.mp (List.mem_cons.not.mp h)
    have htail : escapeJsonPath (ch :: path) = [ch] ++ escapeJsonPath path := by
      rw [escapeJsonPath, List.flatMap_cons, if_neg (Ne.symm hch), ← escapeJsonPath]
    rw [htail, ih hpath]
    rfl

/-- The JSON spelling of a plain value is plain. -/
theorem Plain.escape {name value : Bytes} (h : Plain name value) :
    Plain name (escapeJsonPath value) := by
  refine ⟨fun ch hch => ?_, fun marker hmarker hinside => ?_⟩
  · obtain ⟨c, hc, hch⟩ := List.mem_flatMap.mp hch
    have heq : ch = c := by
      split at hch
      · rename_i hback
        rw [hback] at hch ⊢
        simpa using hch
      · exact List.mem_singleton.mp hch
    exact heq ▸ h.1 c hc
  · -- a value with a backslash is in no marker, and one without is spelled the same
    by_cases hback : (0x5c : UInt8) ∈ value
    · have hnone : markers.all (fun marker => !(lowerAscii marker).contains 0x5c) = true := by decide
      have hmarker := List.all_eq_true.mp hnone marker
        (mem_markers_of_markersOf mem_paths_of_pathsFrom marker hmarker)
      have hmem : (0x5c : UInt8) ∈ lowerAscii (escapeJsonPath value) := by
        refine List.mem_map.mpr ⟨0x5c, List.mem_flatMap.mpr ⟨0x5c, hback, ?_⟩, by decide⟩
        simp
      rw [List.contains_iff_mem.mpr (hinside.subset hmem)] at hmarker
      cases hmarker
    · exact h.2 marker hmarker (escapeJsonPath_of_not_mem hback ▸ hinside)

/-- A word at no place is nowhere in the text. -/
theorem not_infix_of_free {w s : Bytes} (h : Free (fun u => lowerAscii w <+: lowerAscii u) s) :
    ¬lowerAscii w <:+: lowerAscii s := by
  rintro ⟨a, b, hs⟩
  refine h (s.take a.length) (s.drop a.length) (List.take_append_drop ..).symm ⟨b, ?_⟩
  rw [lowerAscii, lowerAscii, List.map_drop, ← lowerAscii, ← lowerAscii, ← hs, List.append_assoc,
    List.drop_left]

/-- The prefixes have no bars. -/
theorem not_isBar_of_mem {word : Word} (hword : word ∈ profilePrefixes ++ tokenPrefixes) :
    ∀ ch ∈ word.val, ¬isBar ch := by
  have hall : (profilePrefixes ++ tokenPrefixes).all (fun word =>
      word.val.all (fun ch => ch ≠ 0x25 && ch ≠ 0x2a)) = true := by
    decide
  intro ch hch
  have hnot := List.all_eq_true.mp (List.all_eq_true.mp hall word hword) ch hch
  simpa [isBar] using hnot

/-- Tokens are solid. -/
theorem solid_token {word : Word} (hword : word ∈ tokenPrefixes) {marker : Bytes}
    (hmarker : marker ∈ markers) (range : Bytes → Bytes → Prop) :
    Solid isBar (tokenPass word).trigger range marker := by
  have hnone : tokenPrefixes.all (fun word => markers.all (fun marker =>
      !decide (lowerAscii word <:+: lowerAscii marker))) = true := by
    decide
  have hnot : ¬lowerAscii word <:+: lowerAscii marker := by
    simpa using List.all_eq_true.mp (List.all_eq_true.mp hnone word hword) marker hmarker
  exact solid_word word.property (not_isBar_of_mem (List.mem_append_right _ hword)) hnot range

/-- The passes are some, and those from the path of a variable on. -/
theorem passes_eq_append (environmentValue : Bytes → Bytes) (name : Bytes) :
    passes environmentValue
      = (paths.takeWhile (fun path => path.1 ≠ name)).flatMap
          (fun path => pathPasses (environmentValue path.1) path.2)
        ++ ((pathsFrom name).flatMap (fun path => pathPasses (environmentValue path.1) path.2)
          ++ fixedPasses) := by
  rw [← List.append_assoc, ← List.flatMap_append, pathsFrom, List.takeWhile_append_dropWhile]
  rfl

/-- A path is among those from its own variable on. -/
theorem mem_pathsFrom : ∀ path ∈ paths, path ∈ pathsFrom path.1 := by
  intro path hpath
  rcases List.mem_cons.mp hpath with rfl | hpath
  · exact List.mem_cons_self
  · obtain rfl := List.mem_singleton.mp hpath
    decide

/-- **What is not in the result**: tokens and user directories, and the paths of the two
variables when their values are plain. -/
theorem redactFreeText_free (environmentValue : Bytes → Bytes) (text : Bytes) :
    (∀ q ∈ fixedPasses, Free q.trigger (redactFreeText environmentValue text))
    ∧ ∀ path ∈ paths, Plain path.1 (environmentValue path.1) →
      ∀ q ∈ pathPasses (environmentValue path.1) path.2,
        Free q.trigger (redactFreeText environmentValue text) := by
  have hpasses := redactFreeText_passes environmentValue text
  refine ⟨fun q hq => ?_, fun path hpath hplain q hq => ?_⟩
  · obtain ⟨u, -, hfixed⟩ := hpasses.of_append
    refine @Passes.free_of_mem _ isBar _ _ _ _ hq (fun q' hq' => ?_) hfixed
    have hmarker : q'.marker ∈ markers :=
      mem_markers_of_markersOf (fun _ => id) _
        (@marker_of_passes environmentValue paths q' (List.mem_append_right _ hq'))
    refine ⟨isMarker_of_mem _ hmarker, ?_⟩
    rcases List.mem_append.mp hq with hq | hq
    · obtain ⟨word, hmem, hword⟩ := List.mem_flatMap.mp hq
      obtain rfl := List.mem_singleton.mp hword
      have hcolon : markers.all (fun marker => !marker.contains 0x3a) = true := by decide
      have hcolon := List.all_eq_true.mp hcolon _ hmarker
      exact solid_profile (isProfilePrefix_of_mem word hmem)
        (not_isBar_of_mem (List.mem_append_left _ hmem))
        (fun hmem => by rw [List.contains_iff_mem.mpr hmem] at hcolon; cases hcolon)
        (head_of_fixedPasses q' hq')
    · obtain ⟨word, hmem, hword⟩ := List.mem_flatMap.mp hq
      obtain rfl := List.mem_singleton.mp hword
      exact solid_token hmem hmarker _
  · -- the passes from the variable's own on, whatever those before have left
    rw [passes_eq_append environmentValue path.1] at hpasses
    obtain ⟨u, -, hfrom⟩ := hpasses.of_append
    have hmem : q ∈ (pathsFrom path.1).flatMap
        (fun path => pathPasses (environmentValue path.1) path.2) ++ fixedPasses :=
      List.mem_append_left _ (List.mem_flatMap.mpr ⟨path, mem_pathsFrom path hpath, hq⟩)
    refine @Passes.free_of_mem _ isBar _ _ _ _ hmem (fun q' hq' => ?_) hfrom
    have hmarker := marker_of_passes q' hq'
    refine ⟨isMarker_of_mem _ (mem_markers_of_markersOf mem_paths_of_pathsFrom _ hmarker), ?_⟩
    have hword : ∀ w, Plain path.1 w →
        Solid isBar (fun u => lowerAscii w <+: lowerAscii u) q'.range q'.marker :=
      fun w hw => solid_word hw.ne_nil hw.1 (hw.2 _ hmarker) _
    rw [pathPasses, if_neg hplain.ne_nil] at hq
    rcases List.mem_cons.mp hq with rfl | hq
    · exact hword _ hplain
    · obtain rfl := List.mem_singleton.mp hq
      exact hword _ hplain.escape

/-- **What has been redacted stays as it is**, if the values of the two variables are plain
or empty. -/
theorem redactFreeText_idempotent {environmentValue : Bytes → Bytes}
    (hplain : ∀ path ∈ paths, environmentValue path.1 = [] ∨ Plain path.1 (environmentValue path.1))
    (text : Bytes) :
    redactFreeText environmentValue (redactFreeText environmentValue text)
      = redactFreeText environmentValue text := by
  obtain ⟨hfixed, hvalues⟩ := redactFreeText_free environmentValue text
  refine (redactFreeText_passes environmentValue _).eq_of_free trigger_of_range fun q hq => ?_
  rcases List.mem_append.mp hq with hq | hq
  · obtain ⟨path, hpath, hq⟩ := List.mem_flatMap.mp hq
    rcases hplain path hpath with hempty | hplain
    · rw [pathPasses, if_pos hempty] at hq
      cases hq
    · exact hvalues path hpath hplain q hq
  · exact hfixed q hq

/-- **`RedactFreeText`.** It keeps the text but for the ranges that its passes replace;
no token and no user directory is left, nor a path of the two variables when its value is
plain; and with such values it changes nothing the second time. -/
theorem redactFreeText_spec (environmentValue : Bytes → Bytes) (text : Bytes) :
    let result := redactFreeText environmentValue text
    Passes (passes environmentValue) text result
    ∧ (∀ word ∈ tokenPrefixes, ¬lowerAscii word <:+: lowerAscii result)
    ∧ (∀ word ∈ profilePrefixes, ∀ front d q n rest, result = front ++ (d :: (q ++ n :: rest)) →
      isAlpha d = true → lowerAscii q = word → isUserByte n = false)
    ∧ (∀ path ∈ paths, Plain path.1 (environmentValue path.1) →
      ¬lowerAscii (environmentValue path.1) <:+: lowerAscii result
        ∧ ¬lowerAscii (escapeJsonPath (environmentValue path.1)) <:+: lowerAscii result)
    ∧ ((∀ path ∈ paths, environmentValue path.1 = [] ∨ Plain path.1 (environmentValue path.1)) →
      redactFreeText environmentValue result = result) := by
  obtain ⟨hfixed, hvalues⟩ := redactFreeText_free environmentValue text
  refine ⟨redactFreeText_passes environmentValue text, fun word hword => ?_,
    fun word hword front d q n rest hresult hd hq => ?_, fun path hpath hplain => ?_,
    fun hplain => redactFreeText_idempotent hplain text⟩
  · refine not_infix_of_free (hfixed (tokenPass word) (List.mem_append_right _ ?_))
    exact List.mem_flatMap.mpr ⟨word, hword, List.mem_singleton_self _⟩
  · have hfree := hfixed (profilePass word)
      (List.mem_append_left _ (List.mem_flatMap.mpr ⟨word, hword, List.mem_singleton_self _⟩))
    refine Bool.eq_false_of_not_eq_true fun hn => ?_
    exact hfree front _ hresult ⟨d, q, n, rest, rfl, hd, hq, hn⟩
  · have hpass := hvalues path hpath hplain
    rw [pathPasses, if_neg hplain.ne_nil] at hpass
    exact ⟨not_infix_of_free (hpass _ List.mem_cons_self),
      not_infix_of_free (hpass _ (List.mem_cons_of_mem _ List.mem_cons_self))⟩

/-- `ReplaceCaseInsensitive` where the word is found once. -/
theorem replaceCaseInsensitive_once {text needle replacement : Bytes} (hneedle : needle ≠ [])
    (found : ℕ) (hfound : findText (lowerAscii text) (lowerAscii needle) 0 = some found)
    (hlast : findText (replaceAt (lowerAscii text) found needle.length (lowerAscii replacement))
      (lowerAscii needle) (found + replacement.length) = none) :
    replaceCaseInsensitive text needle replacement
      = replaceAt text found needle.length replacement := by
  rw [replaceCaseInsensitive, dif_neg hneedle, replaceLoop]
  split
  · rename_i hfind
    rw [hfound] at hfind
    cases hfind
  · rename_i hfind
    rw [hfound] at hfind
    obtain rfl := Option.some.inj hfind
    rw [replaceLoop]
    split
    · rfl
    · rename_i hmore
      rw [hlast] at hmore
      cases hmore

/-- A text in which no prefix is found is kept by the passes over user directories and
tokens. -/
theorem fixed_eq_self {text : Bytes}
    (h : ∀ word ∈ profilePrefixes ++ tokenPrefixes,
      findText (lowerAscii text) (lowerAscii word) 0 = none) :
    tokenPrefixes.foldl redactTokenPrefix (normalizeWindowsUserProfile text) = text := by
  have hnone : ∀ word ∈ profilePrefixes ++ tokenPrefixes, ∀ front u, text = front ++ u →
      ¬lowerAscii word <+: lowerAscii u := fun word hword front u htext =>
    @not_prefix_of_findText [] text _ (h word hword) front u htext
  refine (redactFreeText_passes (fun _ => []) text).eq_of_free trigger_of_range fun q hq => ?_
  rcases List.mem_append.mp hq with hq | hq
  · obtain ⟨path, -, hq⟩ := List.mem_flatMap.mp hq
    cases hq
  rcases List.mem_append.mp hq with hq | hq
  · obtain ⟨word, hmem, hword⟩ := List.mem_flatMap.mp hq
    obtain rfl := List.mem_singleton.mp hword
    rintro front u htext ⟨d, q, n, rest, rfl, -, hq, -⟩
    refine hnone word (List.mem_append_left _ hmem) (front ++ [d]) (q ++ n :: rest)
      (by rw [htext, List.append_assoc]; rfl) ?_
    have hlower : profilePrefixes.all (fun word => lowerAscii word == word.val) = true := by decide
    have hlower := eq_of_beq (List.all_eq_true.mp hlower word hmem)
    exact prefix_lower_iff.mpr ⟨q, n :: rest, rfl, hq.trans hlower.symm⟩
  · obtain ⟨word, hmem, hword⟩ := List.mem_flatMap.mp hq
    obtain rfl := List.mem_singleton.mp hword
    exact fun front u htext => hnone word (List.mem_append_right _ hmem) front u htext

/-- A value that is a part of what is replaced by comes back with it, and the second time
once more. -/
theorem redactFreeText_of_name :
    let environmentValue : Bytes → Bytes := fun name =>
      if name = utf8 "LOCALAPPDATA" then utf8 "data" else []
    let result := redactFreeText environmentValue (utf8 "data")
    result = utf8 "%LOCALAPP%LOCALAPPDATA%%" ∧ lowerAscii (utf8 "data") <:+: lowerAscii result
      ∧ redactFreeText environmentValue result ≠ result := by
  have hnone : ∀ {text : Bytes}, ((profilePrefixes ++ tokenPrefixes).all (fun word =>
      (findText (lowerAscii text) (lowerAscii word) 0).isNone)) = true →
      tokenPrefixes.foldl redactTokenPrefix (normalizeWindowsUserProfile text) = text :=
    fun h => fixed_eq_self fun word hword =>
      Option.isNone_iff_eq_none.mp (List.all_eq_true.mp h word hword)
  have hfirst : replaceCaseInsensitive (utf8 "data") (utf8 "data") (utf8 "%LOCALAPPDATA%")
      = utf8 "%LOCALAPPDATA%" :=
    replaceCaseInsensitive_once (by decide) 0 (by decide) (by decide)
  have hsecond : replaceCaseInsensitive (utf8 "%LOCALAPPDATA%") (utf8 "data")
      (utf8 "%LOCALAPPDATA%") = utf8 "%LOCALAPP%LOCALAPPDATA%%" :=
    replaceCaseInsensitive_once (by decide) 9 (by decide) (by decide)
  have hthird : replaceCaseInsensitive (utf8 "%LOCALAPP%LOCALAPPDATA%%") (utf8 "data")
      (utf8 "%LOCALAPPDATA%") = utf8 "%LOCALAPP%LOCALAPP%LOCALAPPDATA%%%" :=
    replaceCaseInsensitive_once (by decide) 18 (by decide) (by decide)
  have hfourth : replaceCaseInsensitive (utf8 "%LOCALAPP%LOCALAPP%LOCALAPPDATA%%%") (utf8 "data")
      (utf8 "%LOCALAPPDATA%") = utf8 "%LOCALAPP%LOCALAPP%LOCALAPP%LOCALAPPDATA%%%%" :=
    replaceCaseInsensitive_once (by decide) 27 (by decide) (by decide)
  have hescape : escapeJsonPath (utf8 "data") = utf8 "data" := by decide
  have hrun : ∀ text, redactFreeText (fun name =>
      if name = utf8 "LOCALAPPDATA" then utf8 "data" else []) text
      = tokenPrefixes.foldl redactTokenPrefix (normalizeWindowsUserProfile
          (replaceCaseInsensitive
            (replaceCaseInsensitive text (utf8 "data") (utf8 "%LOCALAPPDATA%"))
            (utf8 "data") (utf8 "%LOCALAPPDATA%"))) := by
    intro text
    have hset : utf8 "data" ≠ [] := by decide
    have hother : utf8 "USERPROFILE" ≠ utf8 "LOCALAPPDATA" := by decide
    rw [redactFreeText, paths, List.foldl_cons, List.foldl_cons, List.foldl_nil, if_neg hother]
    dsimp only
    rw [if_pos rfl, if_pos rfl, if_neg hset, hescape]
  have hresult := hrun (utf8 "data")
  rw [hfirst, hsecond, hnone (by decide)] at hresult
  have hagain := hrun (utf8 "%LOCALAPP%LOCALAPPDATA%%")
  rw [hthird, hfourth, hnone (by decide)] at hagain
  dsimp only
  rw [hresult, hagain]
  exact ⟨rfl, by decide, by decide⟩

end AzooKey.Core.Redaction

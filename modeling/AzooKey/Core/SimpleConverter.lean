import AzooKey.Lib.Charconv
import AzooKey.Lib.Getline
import AzooKey.Lib.OrderedMap
import AzooKey.Lib.Restore

/-!
# The converter that learns in its dictionary

`core/src/SimpleConverter.cpp`: a dictionary from readings to candidates, to
which `LoadFromTsv` appends and in which `Learn` raises the score of what the
user commits, or puts a new candidate in front. Learned and loaded candidates
share the lists. What learning has changed is noted under a key of the reading
and the surface (`provenanceKey`): the candidate as it was, or that there was
none. `Forget` acts on one note, `ResetLearned` on all.

Apart from the notes, the dictionary is the one that the loads alone would have
built (`Sound`): it is the list of each reading with its notes put into effect.
Every call keeps that (`Sound.learn`, `Sound.forget`, `Sound.loadFromTsv`), so
`Contains` answers for the loads alone and a reset leaves exactly them
(`learning_is_undone`).

The conversion of a score, `std::stod`, is a parameter; the texts of
`Candidate` that nothing here sets, and the table of `LoadBigramFromTsv`, are
left out.
-/

namespace AzooKey.Core.SimpleConverter

/-! ## The dictionary -/

/-- `CandidateSource`. -/
inductive CandidateSource
  | systemDictionary | userDictionary | model | llm | heuristic | learning | symbol | emoji
deriving DecidableEq

/-- `Candidate`. -/
structure Candidate where
  surface : Bytes
  reading : Bytes
  score : Double
  source : CandidateSource
  debugInfo : Bytes
deriving DecidableEq

/-- The candidates of each reading. -/
abbrev Dictionary := OrderedMap Bytes (List Candidate)

/-- The candidates of a reading; a reading without an entry has none. -/
def bucket (d : Dictionary) (reading : Bytes) : List Candidate := (d.find? reading).getD []

/-- **The members of a `SimpleConverter`.** -/
structure Converter where
  dictionary : Dictionary
  learnedOnlyKeys : Finset Bytes := ∅
  learnedOriginals : OrderedMap Bytes (Option Candidate) := .empty

/-- A decimal literal. -/
def literal (x : ℚ) : Double := Double.round false x

/-- The built-in candidates of a reading. -/
def builtIn (reading best fallback : String) (identityScore fallbackScore : ℚ) : List Candidate :=
  [⟨utf8 best, utf8 reading, literal 1, .systemDictionary, utf8 "static-dict"⟩,
    ⟨utf8 reading, utf8 reading, literal identityScore, .heuristic, utf8 "identity"⟩,
    ⟨utf8 fallback, utf8 reading, literal fallbackScore, .systemDictionary, utf8 "fallback"⟩]

/-- **`SimpleConverter`**: the converter with its built-in entries. -/
def initial : Converter where
  dictionary :=
    ((OrderedMap.empty.assign (utf8 "わたし") (builtIn "わたし" "私" "渡し" (8 / 10) (3 / 10))).assign
      (utf8 "にほん") (builtIn "にほん" "日本" "二本" (7 / 10) (4 / 10))).assign
      (utf8 "とうきょう") (builtIn "とうきょう" "東京" "投棄用" (8 / 10) (1 / 10))

/-- `ProvenanceKey`: the length of the reading comes first, so no two pairs
share a key. -/
def provenanceKey (reading surface : Bytes) : Bytes :=
  decimalDigits reading.length ++ 0x3a :: (reading ++ surface)

/-! ## Loading -/

/-- `SourceFromTsvTag`. -/
def sourceFromTsvTag (source : Bytes) : CandidateSource :=
  if source ∈ [utf8 "user", utf8 "user_dict", utf8 "user-dict", utf8 "learned",
      utf8 "learned-new"] then .userDictionary
  else if source ∈ [utf8 "identity", utf8 "heuristic", utf8 "heuristic-long-vowel",
      utf8 "heuristic-quote"] then .heuristic
  else if source = utf8 "model" then .model
  else if source = utf8 "llm" then .llm
  else .systemDictionary

/-- The candidate of a line. `stod` fails where `std::stod` throws. -/
def parseRow (stod : Bytes → Option Double) (line : Bytes) : Option Candidate := do
  let (reading, rest) ← Bytes.getline 0x09 line
  let (surface, rest) ← Bytes.getline 0x09 rest
  let (scoreText, rest) ← Bytes.getline 0x09 rest
  let source := ((Bytes.getline 0x0a rest).map Prod.fst).getD []
  if reading = [] ∨ surface = [] then none
  else
    let score ← stod scoreText
    if score.isFinite then
      some ⟨surface, reading, score, sourceFromTsvTag source,
        if source = [] then utf8 "tsv" else source⟩
    else none

/-- The candidates of a text: the lines that are neither empty nor comments, and
parse. -/
def parseRows (stod : Bytes → Option Double) (text : Bytes) : List Candidate :=
  ((Bytes.pieces 0x0a text).filter (fun line => line ≠ [] && line.head? ≠ some 0x23)).filterMap
    (parseRow stod)

/-- A candidate appended to those of its reading. -/
def append (d : Dictionary) (candidate : Candidate) : Dictionary :=
  d.assign candidate.reading (bucket d candidate.reading ++ [candidate])

/-- One row of `LoadFromTsv`. -/
def loadRow (c : Converter) (candidate : Candidate) : Converter :=
  { c with
    dictionary := append c.dictionary candidate
    learnedOnlyKeys :=
      c.learnedOnlyKeys.erase (provenanceKey candidate.reading candidate.surface) }

/-- **`LoadFromTsv`**, of a file that may not be there: the converter, and whether
a row was loaded. -/
def loadFromTsv (stod : Bytes → Option Double) (c : Converter) (file : Option Bytes) :
    Converter × Bool :=
  let rows := (file.map (parseRows stod)).getD []
  (rows.foldl loadRow c, rows ≠ [])

/-! ## Learning -/

/-- The candidates have one of a surface. -/
def Has (l : List Candidate) (surface : Bytes) : Prop := ∃ candidate ∈ l, candidate.surface = surface

instance (l : List Candidate) (surface : Bytes) : Decidable (Has l surface) :=
  inferInstanceAs (Decidable (∃ candidate ∈ l, candidate.surface = surface))

/-- **`Contains`**: there is such a candidate, and not only because of `Learn`. -/
def contains (c : Converter) (reading surface : Bytes) : Bool :=
  decide (Has (bucket c.dictionary reading) surface)
    && decide (provenanceKey reading surface ∉ c.learnedOnlyKeys)

/-- `try_emplace`: a note that is there stays. -/
def note (c : Converter) (key : Bytes) (original : Option Candidate) :
    OrderedMap Bytes (Option Candidate) :=
  if (c.learnedOriginals.find? key).isSome then c.learnedOriginals
  else c.learnedOriginals.assign key original

/-- A candidate that was committed once more. -/
def raise (candidate : Candidate) : Candidate :=
  { candidate with score := candidate.score.add (literal (2 / 10)), debugInfo := utf8 "learned" }

/-- **`Learn`.** -/
def learn (c : Converter) (committedSurface committedReading : Bytes) : Converter :=
  let candidates := bucket c.dictionary committedReading
  let key := provenanceKey committedReading committedSurface
  match candidates.find? (fun candidate => candidate.surface = committedSurface) with
  | some found =>
    { c with
      dictionary := c.dictionary.assign committedReading
        (candidates.editFirst Candidate.surface committedSurface (fun a => some (raise a)))
      learnedOriginals := note c key (some found) }
  | none =>
    { dictionary := c.dictionary.assign committedReading
        (⟨committedSurface, committedReading, literal (12 / 10), .userDictionary,
          utf8 "learned-new"⟩ :: candidates)
      learnedOnlyKeys := insert key c.learnedOnlyKeys
      learnedOriginals := note c key none }

/-- `Commit`. -/
def commit (c : Converter) (selected : Candidate) : Converter :=
  learn c selected.surface selected.reading

/-- The dictionary with the candidates of a reading replaced; a reading without
candidates has no entry. -/
def setBucket (d : Dictionary) (reading : Bytes) (candidates : List Candidate) : Dictionary :=
  if candidates = [] then d.erase reading else d.assign reading candidates

/-- The dictionary with a note put into effect. -/
def actOn (d : Dictionary) (reading surface : Bytes) (original : Option Candidate) : Dictionary :=
  match d.find? reading with
  | none => d
  | some candidates =>
    setBucket d reading (candidates.editFirst Candidate.surface surface (fun _ => original))

/-- **`Forget`.** -/
def forget (c : Converter) (reading surface : Bytes) : Converter :=
  let key := provenanceKey reading surface
  match c.learnedOriginals.find? key with
  | none => c
  | some original =>
    { dictionary := actOn c.dictionary reading surface original
      learnedOnlyKeys := c.learnedOnlyKeys.erase key
      learnedOriginals := c.learnedOriginals.erase key }

/-- The pairs that have a note, in the order of the readings. -/
def learnedPairs (c : Converter) : List (Bytes × Bytes) :=
  c.dictionary.entries.flatMap (fun entry =>
    (entry.2.filter (fun candidate =>
      (c.learnedOriginals.find? (provenanceKey entry.1 candidate.surface)).isSome)).map
        (fun candidate => (entry.1, candidate.surface)))

/-- **`ResetLearned`**: the pairs with a note are forgotten. The source goes
through a hash table, so they come in any order. -/
def ResetLearned (c c' : Converter) : Prop :=
  ∃ pairs : List (Bytes × Bytes), pairs.Perm (learnedPairs c) ∧ c' = pairs.foldl (fun c p => forget c p.1 p.2) c

/-! ## Runs -/

/-- The calls. -/
inductive Call
  | loadFromTsv (file : Option Bytes)
  | learn (surface reading : Bytes)
  | commit (selected : Candidate)
  | forget (reading surface : Bytes)
  | resetLearned

/-- **What a call may leave.** -/
def Step (stod : Bytes → Option Double) (c : Converter) : Call → Converter → Prop
  | .loadFromTsv file, c' => c' = (loadFromTsv stod c file).1
  | .learn surface reading, c' => c' = learn c surface reading
  | .commit selected, c' => c' = commit c selected
  | .forget reading surface, c' => c' = forget c reading surface
  | .resetLearned, c' => ResetLearned c c'

/-- **The runs**, from the built-in entries. -/
inductive Run (stod : Bytes → Option Double) : List Call → Converter → Prop
  | start : Run stod [] initial
  | step {calls : List Call} {c c' : Converter} (call : Call) :
      Run stod calls c → Step stod c call c' → Run stod (calls ++ [call]) c'

/-- The file that a call loads. -/
def Call.loaded : Call → Option (Option Bytes)
  | .loadFromTsv file => some file
  | _ => none

/-- **The dictionary that the loads of a run build alone.** -/
def loadsAlone (stod : Bytes → Option Double) (calls : List Call) : Dictionary :=
  ((calls.filterMap Call.loaded).foldl (fun c file => (loadFromTsv stod c file).1)
    initial).dictionary

/-! ## One reading -/

/-- **The candidates of a reading are those of the loads, apart from what is
noted.** A note is about a candidate that is there, and the surfaces that are
there only because of `Learn` are known. -/
structure SoundAt (l lexicon : List Candidate) (notes : Bytes → Option (Option Candidate))
    (only : Bytes → Prop) : Prop where
  restored : l.restore Candidate.surface notes = lexicon
  noted : ∀ surface, notes surface ≠ none → Has l surface
  keys : ∀ surface x, notes surface = some (some x) → x.surface = surface
  only_iff : ∀ surface, only surface ↔ Has l surface ∧ ¬ Has lexicon surface

namespace SoundAt

variable {l lexicon : List Candidate} {notes : Bytes → Option (Option Candidate)}
  {only : Bytes → Prop}

/-- What the loads have is there. -/
theorem has_of_lexicon (h : SoundAt l lexicon notes only) {surface : Bytes}
    (hhas : Has lexicon surface) : Has l surface := by
  obtain ⟨candidate, hmem, rfl⟩ := hhas
  rw [← h.restored] at hmem
  exact List.exists_of_mem_restore h.keys hmem

/-- A raised candidate keeps its surface. -/
theorem has_raise (l : List Candidate) (surface other : Bytes) :
    Has (l.editFirst Candidate.surface surface (fun a => some (raise a))) other ↔ Has l other := by
  have hmap : ∀ l : List Candidate,
      (l.editFirst Candidate.surface surface (fun a => some (raise a))).map Candidate.surface
        = l.map Candidate.surface := by
    intro l
    induction l with
    | nil => rfl
    | cons a l ih =>
      rw [List.editFirst]
      split
      · rfl
      · rw [List.map_cons, List.map_cons, ih]
  have hhas : ∀ l : List Candidate, Has l other ↔ other ∈ l.map Candidate.surface :=
    fun l => List.mem_map.symm
  rw [hhas, hhas, hmap]

/-- **A candidate is raised.** -/
theorem learn_found (h : SoundAt l lexicon notes only) {surface : Bytes} {found : Candidate}
    (hfound : l.find? (fun a => a.surface = surface) = some found) :
    SoundAt (l.editFirst Candidate.surface surface (fun a => some (raise a))) lexicon
      (Function.update notes surface (some ((notes surface).getD (some found)))) only := by
  have hkey : found.surface = surface := by simpa using List.find?_some hfound
  refine ⟨?_, fun other hnote => ?_, fun other x hnote => ?_, fun other => ?_⟩
  · rw [← h.restored]
    cases hnone : notes surface with
    | none => exact List.restore_note hnone hfound (fun _ => rfl)
    | some original =>
      rw [Option.getD_some, Function.update_eq_self_iff.mpr hnone.symm]
      exact List.restore_edit_noted (f := raise) hnone
        (fun x hx => h.keys surface x (by rw [hnone, hx])) (fun _ => rfl) l
  · rw [has_raise]
    by_cases hother : other = surface
    · exact hother ▸ ⟨found, List.mem_of_find?_eq_some hfound, hkey⟩
    · exact h.noted other (by rwa [Function.update_of_ne hother] at hnote)
  · by_cases hother : other = surface
    · rw [hother, Function.update_self] at hnote
      cases hnone : notes surface with
      | none =>
        rw [hnone] at hnote
        obtain rfl := Option.some.inj (Option.some.inj hnote)
        exact hkey.trans hother.symm
      | some original =>
        rw [hnone] at hnote
        exact (h.keys surface x (by rw [hnone, ← hnote]; rfl)).trans hother.symm
    · exact h.keys other x (by rwa [Function.update_of_ne hother] at hnote)
  · rw [has_raise]
    exact h.only_iff other

/-- **A candidate is added.** -/
theorem learn_new (h : SoundAt l lexicon notes only) (candidate : Candidate)
    (hnew : ¬ Has l candidate.surface) :
    SoundAt (candidate :: l) lexicon
      (Function.update notes candidate.surface (some ((notes candidate.surface).getD none)))
      (fun surface => surface = candidate.surface ∨ only surface) := by
  have hnone : notes candidate.surface = none := by
    by_contra hne
    exact hnew (h.noted _ hne)
  have hcons : ∀ {surface}, surface ≠ candidate.surface →
      (Has (candidate :: l) surface ↔ Has l surface) := by
    intro surface hne
    refine ⟨fun ⟨a, ha, hsurface⟩ => ?_, fun ⟨a, ha, hsurface⟩ =>
      ⟨a, List.mem_cons_of_mem _ ha, hsurface⟩⟩
    rcases List.mem_cons.mp ha with rfl | ha
    · exact absurd hsurface.symm hne
    · exact ⟨a, ha, hsurface⟩
  have hfirst : Has (candidate :: l) candidate.surface := ⟨candidate, List.mem_cons_self, rfl⟩
  rw [hnone, Option.getD_none]
  refine ⟨?_, fun surface hnote => ?_, fun surface x hnote => ?_, fun surface => ?_⟩
  · rw [List.restore_added hnone, h.restored]
  · by_cases hsurface : surface = candidate.surface
    · exact hsurface ▸ hfirst
    · rw [Function.update_of_ne hsurface] at hnote
      exact (hcons hsurface).mpr (h.noted surface hnote)
  · by_cases hsurface : surface = candidate.surface
    · rw [hsurface, Function.update_self] at hnote
      cases Option.some.inj hnote
    · exact h.keys surface x (by rwa [Function.update_of_ne hsurface] at hnote)
  · by_cases hsurface : surface = candidate.surface
    · subst hsurface
      exact ⟨fun _ => ⟨hfirst, fun hhas => hnew (h.has_of_lexicon hhas)⟩, fun _ => Or.inl rfl⟩
    · rw [hcons hsurface, ← h.only_iff]
      exact ⟨fun hor => hor.resolve_left hsurface, Or.inr⟩

/-- Without a note the candidates of a surface are those of the loads. -/
theorem filter_eq (h : SoundAt l lexicon notes only) {surface : Bytes}
    (hnone : notes surface = none) :
    l.filter (fun a => a.surface = surface) = lexicon.filter (fun a => a.surface = surface) := by
  rw [← h.restored]
  exact (List.filter_restore hnone h.keys l).symm

/-- A note that is acted on is about its own surface. -/
theorem keys_original (h : SoundAt l lexicon notes only) {surface : Bytes}
    {original : Option Candidate} (hnote : notes surface = some original) :
    ∀ x ∈ original, x.surface = surface :=
  fun x hx => h.keys surface x (by rw [hnote, hx])

/-- **A note is acted on and dropped.** -/
theorem forget (h : SoundAt l lexicon notes only) {surface : Bytes} {original : Option Candidate}
    (hnote : notes surface = some original) :
    SoundAt (l.editFirst Candidate.surface surface (fun _ => original)) lexicon
      (Function.update notes surface none) (fun other => other ≠ surface ∧ only other) := by
  have hkey := h.keys_original hnote
  have hother : ∀ {other}, other ≠ surface →
      (Has (l.editFirst Candidate.surface surface (fun _ => original)) other ↔ Has l other) :=
    fun hne => List.exists_mem_editFirst hne (fun a _ _ b hb => hkey b hb)
  have hrestored : (l.editFirst Candidate.surface surface (fun _ => original)).restore
      Candidate.surface (Function.update notes surface none) = lexicon := by
    rw [List.restore_editFirst hnote hkey, h.restored]
  have hkeys : ∀ other x, Function.update notes surface none other = some (some x) →
      x.surface = other := by
    intro other x hx
    by_cases heq : other = surface
    · rw [heq, Function.update_self] at hx
      cases hx
    · exact h.keys other x (by rwa [Function.update_of_ne heq] at hx)
  refine ⟨hrestored, fun other hne => ?_, hkeys, fun other => ?_⟩
  · by_cases heq : other = surface
    · rw [heq, Function.update_self] at hne
      exact absurd rfl hne
    · exact (hother heq).mpr (h.noted other (by rwa [Function.update_of_ne heq] at hne))
  · by_cases heq : other = surface
    · -- What is left of the surface comes from the loads.
      subst heq
      refine ⟨fun hand => absurd rfl hand.1, fun ⟨⟨a, ha, hsurface⟩, hno⟩ => absurd ?_ hno⟩
      have hfilter := List.filter_restore (Function.update_self other none notes) hkeys
        (l.editFirst Candidate.surface other (fun _ => original))
      rw [hrestored] at hfilter
      have hmem : a ∈ lexicon.filter (fun a => a.surface = other) := by
        rw [hfilter]
        exact List.mem_filter.mpr ⟨ha, by simpa using hsurface⟩
      exact ⟨a, (List.mem_filter.mp hmem).1, hsurface⟩
    · rw [hother heq, ← h.only_iff]
      exact ⟨fun hand => hand.2, fun honly => ⟨heq, honly⟩⟩

/-- **A candidate is loaded.** -/
theorem load (h : SoundAt l lexicon notes only) (candidate : Candidate) :
    SoundAt (l ++ [candidate]) (lexicon ++ [candidate]) notes
      (fun surface => surface ≠ candidate.surface ∧ only surface) := by
  have hlast : ∀ (l : List Candidate) (surface : Bytes),
      Has (l ++ [candidate]) surface ↔ Has l surface ∨ surface = candidate.surface := by
    intro l surface
    constructor
    · rintro ⟨a, ha, hsurface⟩
      rcases List.mem_append.mp ha with ha | ha
      · exact Or.inl ⟨a, ha, hsurface⟩
      · exact Or.inr (by rw [← hsurface, List.mem_singleton.mp ha])
    · rintro (⟨a, ha, hsurface⟩ | rfl)
      · exact ⟨a, List.mem_append_left _ ha, hsurface⟩
      · exact ⟨candidate, List.mem_append_right _ (List.mem_singleton_self _), rfl⟩
  refine ⟨?_, fun surface hnote => ?_, h.keys, fun surface => ?_⟩
  · rw [List.restore_append (fun hne => h.noted _ hne), h.restored]
  · exact (hlast l surface).mpr (Or.inl (h.noted surface hnote))
  · rw [hlast, hlast, h.only_iff]
    tauto

end SoundAt

/-! ## All readings -/

/-- **No two pairs share a key.** -/
theorem provenanceKey_inj {reading surface reading' surface' : Bytes} :
    provenanceKey reading surface = provenanceKey reading' surface'
      ↔ reading = reading' ∧ surface = surface' := by
  refine ⟨fun h => ?_, fun h => by rw [h.1, h.2]⟩
  have hcolon : ∀ n : ℕ, 0x3a ∉ decimalDigits n :=
    fun n hmem => absurd (isDigitByte_of_mem_decimalDigits hmem) (by decide)
  have hcut := congrArg (Bytes.breakAt 0x3a) h
  unfold provenanceKey at hcut
  rw [Bytes.breakAt_append (hcolon _), Bytes.breakAt_append (hcolon _)] at hcut
  obtain ⟨hdigits, htext⟩ := Prod.mk.inj (Option.some.inj hcut)
  have hlength : reading.length = reading'.length := by
    rw [← digitsValue_decimalDigits reading.length, hdigits, digitsValue_decimalDigits]
  exact List.append_inj htext hlength

/-- The note of a pair. -/
def notes (c : Converter) (reading surface : Bytes) : Option (Option Candidate) :=
  c.learnedOriginals.find? (provenanceKey reading surface)

/-- A pair that is there only because of `Learn`. -/
def LearnedOnly (c : Converter) (reading surface : Bytes) : Prop :=
  provenanceKey reading surface ∈ c.learnedOnlyKeys

/-- No reading has an empty list. -/
def NoEmptyEntry (d : Dictionary) : Prop := ∀ reading l, d.find? reading = some l → l ≠ []

/-- **A converter holds what the loads have built, apart from its notes.** -/
structure Sound (c : Converter) (lexicon : Dictionary) : Prop where
  at_reading : ∀ reading, SoundAt (bucket c.dictionary reading) (bucket lexicon reading)
    (notes c reading) (LearnedOnly c reading)
  noEmptyEntry : NoEmptyEntry c.dictionary
  lexicon_noEmptyEntry : NoEmptyEntry lexicon

/-- The candidates after an assignment. -/
theorem bucket_assign (d : Dictionary) (reading : Bytes) (l : List Candidate) (other : Bytes) :
    bucket (d.assign reading l) other = if other = reading then l else bucket d other := by
  unfold bucket
  rw [OrderedMap.find?_assign]
  split <;> rfl

/-- A list that is not empty may come in. -/
theorem NoEmptyEntry.assign {d : Dictionary} (h : NoEmptyEntry d) {reading : Bytes}
    {l : List Candidate} (hl : l ≠ []) : NoEmptyEntry (d.assign reading l) := by
  intro other l' hfound
  rw [OrderedMap.find?_assign] at hfound
  split at hfound
  · exact Option.some.inj hfound ▸ hl
  · exact h other l' hfound

/-- The candidates after a replacement. -/
theorem bucket_setBucket (d : Dictionary) (reading : Bytes) (l : List Candidate) (other : Bytes) :
    bucket (setBucket d reading l) other = if other = reading then l else bucket d other := by
  unfold setBucket
  split
  · rename_i hl
    unfold bucket
    rw [OrderedMap.find?_erase]
    split
    · rw [hl, Option.getD_none]
    · rfl
  · exact bucket_assign d reading l other

/-- A replacement leaves no list empty. -/
theorem NoEmptyEntry.setBucket {d : Dictionary} (h : NoEmptyEntry d) (reading : Bytes)
    (l : List Candidate) : NoEmptyEntry (setBucket d reading l) := by
  unfold SimpleConverter.setBucket
  split
  · intro other l' hfound
    rw [OrderedMap.find?_erase] at hfound
    split at hfound
    · cases hfound
    · exact h other l' hfound
  · rename_i hl
    exact h.assign hl

/-- The notes after one was made. -/
theorem find?_note (c : Converter) (reading surface : Bytes) (original : Option Candidate)
    (other : Bytes) :
    (fun s => (note c (provenanceKey reading surface) original).find? (provenanceKey other s))
      = if other = reading then Function.update (notes c reading) surface
          (some ((notes c reading surface).getD original))
        else notes c other := by
  funext s
  have hfind : (note c (provenanceKey reading surface) original).find? (provenanceKey other s)
      = if other = reading ∧ s = surface then some ((notes c reading surface).getD original)
        else notes c other s := by
    unfold note notes
    cases hfound : c.learnedOriginals.find? (provenanceKey reading surface) with
    | some x =>
      simp only [Option.isSome_some, if_true]
      split
      · rename_i hkey
        rw [hkey.1, hkey.2, hfound]
        rfl
      · rfl
    | none =>
      simp only [Option.isSome_none, Bool.false_eq_true, if_false, OrderedMap.find?_assign,
        provenanceKey_inj]
      rfl
  rw [hfind]
  by_cases hother : other = reading
  · rw [if_pos hother]
    by_cases hs : s = surface
    · rw [if_pos ⟨hother, hs⟩, hs, Function.update_self]
    · rw [if_neg (fun h => hs h.2), Function.update_of_ne hs, hother]
  · rw [if_neg hother, if_neg (fun h => hother h.1)]

/-- **`Learn` leaves what the loads have built.** -/
theorem Sound.learn {c : Converter} {lexicon : Dictionary} (h : Sound c lexicon)
    (surface reading : Bytes) : Sound (learn c surface reading) lexicon := by
  unfold SimpleConverter.learn
  dsimp only
  cases hfound : (bucket c.dictionary reading).find? (fun a => a.surface = surface) with
  | some found =>
    refine ⟨fun other => ?_, h.noEmptyEntry.assign ?_, h.lexicon_noEmptyEntry⟩
    · show SoundAt (bucket (c.dictionary.assign _ _) other) _
        (fun s => (note c _ _).find? (provenanceKey other s)) _
      rw [bucket_assign, find?_note]
      split
      · rename_i hother
        rw [hother]
        exact (h.at_reading reading).learn_found hfound
      · exact h.at_reading other
    · intro hnil
      have hhas := (SoundAt.has_raise _ surface surface).mpr
        ⟨found, List.mem_of_find?_eq_some hfound, by simpa using List.find?_some hfound⟩
      rw [hnil] at hhas
      obtain ⟨a, ha, -⟩ := hhas
      exact List.not_mem_nil ha
  | none =>
    have hnew : ¬ Has (bucket c.dictionary reading) surface := by
      rintro ⟨a, ha, hsurface⟩
      exact absurd (List.find?_eq_none.mp hfound a ha) (by simpa using hsurface)
    refine ⟨fun other => ?_, h.noEmptyEntry.assign (List.cons_ne_nil _ _), h.lexicon_noEmptyEntry⟩
    show SoundAt (bucket (c.dictionary.assign _ _) other) _
      (fun s => (note c _ _).find? (provenanceKey other s))
      (fun s => provenanceKey other s ∈ insert (provenanceKey reading surface) c.learnedOnlyKeys)
    rw [bucket_assign, find?_note]
    simp only [Finset.mem_insert, provenanceKey_inj]
    split
    · rename_i hother
      subst hother
      simp only [true_and]
      exact (h.at_reading other).learn_new ⟨surface, other, _, _, _⟩ hnew
    · rename_i hother
      simp only [hother, false_and, false_or]
      exact h.at_reading other

/-- The candidates after a note was put into effect. -/
theorem bucket_actOn (d : Dictionary) (reading surface : Bytes) (original : Option Candidate)
    (other : Bytes) :
    bucket (actOn d reading surface original) other
      = if other = reading then
          (bucket d reading).editFirst Candidate.surface surface (fun _ => original)
        else bucket d other := by
  unfold actOn
  cases hfound : d.find? reading with
  | none =>
    have hnil : bucket d reading = [] := by rw [bucket, hfound, Option.getD_none]
    by_cases hother : other = reading
    · rw [if_pos hother, hother, hnil]
      rfl
    · rw [if_neg hother]
  | some l =>
    have hl : bucket d reading = l := by rw [bucket, hfound, Option.getD_some]
    show bucket (setBucket _ _ _) other = _
    rw [bucket_setBucket, hl]

/-- Without a note there is nothing to forget. -/
theorem forget_of_none {c : Converter} {reading surface : Bytes}
    (h : notes c reading surface = none) : forget c reading surface = c := by
  unfold notes at h
  simp only [forget, h]

/-- A note is put into effect and dropped. -/
theorem forget_of_some {c : Converter} {reading surface : Bytes} {original : Option Candidate}
    (h : notes c reading surface = some original) :
    forget c reading surface
      = ⟨actOn c.dictionary reading surface original,
        c.learnedOnlyKeys.erase (provenanceKey reading surface),
        c.learnedOriginals.erase (provenanceKey reading surface)⟩ := by
  unfold notes at h
  simp only [forget, h]

/-- What `Forget` does to the notes. -/
theorem notes_forget (c : Converter) (reading surface other : Bytes) :
    notes (forget c reading surface) other
      = if other = reading then Function.update (notes c reading) surface none
        else notes c other := by
  funext s
  have hfind : notes (forget c reading surface) other s
      = if other = reading ∧ s = surface then none else notes c other s := by
    cases hnote : notes c reading surface with
    | none =>
      rw [forget_of_none hnote]
      by_cases hkey : other = reading ∧ s = surface
      · rw [if_pos hkey, hkey.1, hkey.2, hnote]
      · rw [if_neg hkey]
    | some original =>
      rw [forget_of_some hnote]
      show (c.learnedOriginals.erase _).find? _ = _
      rw [OrderedMap.find?_erase]
      simp only [provenanceKey_inj]
      rfl
  rw [hfind]
  by_cases hother : other = reading
  · rw [if_pos hother]
    by_cases hs : s = surface
    · rw [if_pos ⟨hother, hs⟩, hs, Function.update_self]
    · rw [if_neg (fun h => hs h.2), Function.update_of_ne hs, hother]
  · rw [if_neg hother, if_neg (fun h => hother h.1)]

/-- **`Forget` leaves what the loads have built.** -/
theorem Sound.forget {c : Converter} {lexicon : Dictionary} (h : Sound c lexicon)
    (reading surface : Bytes) : Sound (forget c reading surface) lexicon := by
  cases hnote : notes c reading surface with
  | none =>
    rw [forget_of_none hnote]
    exact h
  | some original =>
    refine ⟨fun other => ?_, ?_, h.lexicon_noEmptyEntry⟩
    · rw [notes_forget, forget_of_some hnote]
      show SoundAt (bucket (actOn c.dictionary reading surface original) other) _ _
        (fun s => provenanceKey other s ∈ c.learnedOnlyKeys.erase (provenanceKey reading surface))
      rw [bucket_actOn]
      simp only [Finset.mem_erase, ne_eq, provenanceKey_inj]
      by_cases hother : other = reading
      · subst hother
        simp only [if_true, true_and]
        exact (h.at_reading other).forget hnote
      · simp only [hother, if_false, false_and, not_false_eq_true, true_and]
        exact h.at_reading other
    · rw [forget_of_some hnote]
      show NoEmptyEntry (actOn c.dictionary reading surface original)
      unfold actOn
      split
      · exact h.noEmptyEntry
      · exact h.noEmptyEntry.setBucket reading _

/-- **A row that is loaded is loaded on both sides.** -/
theorem Sound.loadRow {c : Converter} {lexicon : Dictionary} (h : Sound c lexicon)
    (candidate : Candidate) : Sound (loadRow c candidate) (append lexicon candidate) := by
  have hne : ∀ l : List Candidate, l ++ [candidate] ≠ [] := fun l => by simp
  refine ⟨fun other => ?_, h.noEmptyEntry.assign (hne _), h.lexicon_noEmptyEntry.assign (hne _)⟩
  show SoundAt (bucket (append c.dictionary candidate) other) (bucket (append lexicon candidate) other)
    (notes c other) (fun s => provenanceKey other s
      ∈ c.learnedOnlyKeys.erase (provenanceKey candidate.reading candidate.surface))
  unfold append
  rw [bucket_assign, bucket_assign]
  simp only [Finset.mem_erase, ne_eq, provenanceKey_inj]
  by_cases hother : other = candidate.reading
  · rw [if_pos hother, if_pos hother, hother]
    simp only [true_and]
    exact (h.at_reading candidate.reading).load candidate
  · rw [if_neg hother, if_neg hother]
    simp only [hother, false_and, not_false_eq_true, true_and]
    exact h.at_reading other

/-- A file that is loaded is loaded on both sides. -/
theorem Sound.loadFromTsv {c b : Converter} (stod : Bytes → Option Double)
    (h : Sound c b.dictionary) (file : Option Bytes) :
    Sound (loadFromTsv stod c file).1 (loadFromTsv stod b file).1.dictionary := by
  unfold SimpleConverter.loadFromTsv
  dsimp only
  induction (file.map (parseRows stod)).getD [] generalizing c b with
  | nil => exact h
  | cons row rows ih => exact ih (h.loadRow row)

/-- Forgetting pairs leaves what the loads have built. -/
theorem Sound.forgetAll {c : Converter} {lexicon : Dictionary} (h : Sound c lexicon)
    (pairs : List (Bytes × Bytes)) :
    Sound (pairs.foldl (fun c p => SimpleConverter.forget c p.1 p.2) c) lexicon := by
  induction pairs generalizing c with
  | nil => exact h
  | cons p pairs ih => exact ih (h.forget p.1 p.2)

/-- A note that is left after pairs were forgotten is about none of them. -/
theorem notes_forgetAll (c : Converter) (pairs : List (Bytes × Bytes)) {reading surface : Bytes}
    (h : notes (pairs.foldl (fun c p => forget c p.1 p.2) c) reading surface ≠ none) :
    notes c reading surface ≠ none ∧ (reading, surface) ∉ pairs := by
  induction pairs generalizing c with
  | nil => exact ⟨h, List.not_mem_nil⟩
  | cons p pairs ih =>
    obtain ⟨hnote, hmem⟩ := ih (forget c p.1 p.2) h
    rw [notes_forget] at hnote
    by_cases hp : (reading, surface) = p
    · rw [← hp, if_pos rfl, Function.update_self] at hnote
      exact absurd rfl hnote
    · refine ⟨?_, fun hin => (List.mem_cons.mp hin).elim hp hmem⟩
      by_cases hr : reading = p.1
      · have hs : surface ≠ p.2 := fun hs => hp (Prod.ext hr hs)
        rwa [if_pos hr, Function.update_of_ne hs, ← hr] at hnote
      · rwa [if_neg hr] at hnote

/-- Every note is about one of the pairs that a reset collects. -/
theorem mem_learnedPairs {c : Converter} {lexicon : Dictionary} (h : Sound c lexicon)
    {reading surface : Bytes} (hnote : notes c reading surface ≠ none) :
    (reading, surface) ∈ learnedPairs c := by
  obtain ⟨candidate, hmem, rfl⟩ := (h.at_reading reading).noted surface hnote
  unfold bucket at hmem
  cases hfound : c.dictionary.find? reading with
  | none =>
    rw [hfound] at hmem
    exact absurd hmem List.not_mem_nil
  | some l =>
    rw [hfound] at hmem
    refine List.mem_flatMap.mpr ⟨(reading, l), c.dictionary.find?_eq_some_iff.mp hfound, ?_⟩
    exact List.mem_map.mpr ⟨candidate,
      List.mem_filter.mpr ⟨hmem, Option.isSome_iff_ne_none.mpr hnote⟩, rfl⟩

/-- **A reset leaves what the loads have built, and no note.** -/
theorem Sound.resetLearned {c c' : Converter} {lexicon : Dictionary} (h : Sound c lexicon)
    (hreset : ResetLearned c c') :
    Sound c' lexicon ∧ ∀ reading surface, notes c' reading surface = none := by
  obtain ⟨pairs, hperm, rfl⟩ := hreset
  refine ⟨h.forgetAll pairs, fun reading surface => ?_⟩
  by_contra hne
  obtain ⟨hnote, hmem⟩ := notes_forgetAll c pairs hne
  exact hmem (hperm.mem_iff.mpr (mem_learnedPairs h hnote))

/-- Dictionaries without empty lists that have the same candidates are equal. -/
theorem eq_of_bucket {d d' : Dictionary} (h : NoEmptyEntry d) (h' : NoEmptyEntry d')
    (hbucket : ∀ reading, bucket d reading = bucket d' reading) : d = d' := by
  have hone : ∀ {d d' : Dictionary}, NoEmptyEntry d →
      (∀ reading, bucket d reading = bucket d' reading) →
        ∀ reading l, d.find? reading = some l → d'.find? reading = some l := by
    intro d d' h hbucket reading l hl
    have heq := hbucket reading
    unfold bucket at heq
    rw [hl, Option.getD_some] at heq
    cases hl' : d'.find? reading with
    | some l' => rw [heq, hl', Option.getD_some]
    | none =>
      rw [hl', Option.getD_none] at heq
      exact absurd heq (h reading l hl)
  refine OrderedMap.ext_of_find? (fun reading => Option.ext (fun l => ?_))
  exact ⟨hone h hbucket reading l, hone h' (fun r => (hbucket r).symm) reading l⟩

/-! ## Whole runs -/

/-- The built-in entries are those of the loads. -/
theorem sound_initial : Sound initial initial.dictionary := by
  have hbuilt : ∀ reading best fallback identityScore fallbackScore,
      builtIn reading best fallback identityScore fallbackScore ≠ [] :=
    fun _ _ _ _ _ => List.cons_ne_nil _ _
  have hempty : NoEmptyEntry (OrderedMap.empty : Dictionary) := by
    intro reading l h
    cases h
  have hinitial : NoEmptyEntry initial.dictionary :=
    ((hempty.assign (hbuilt _ _ _ _ _)).assign (hbuilt _ _ _ _ _)).assign (hbuilt _ _ _ _ _)
  refine ⟨fun reading => ⟨List.restore_of_none (fun _ => rfl) _, fun surface hne => absurd rfl hne,
    fun surface x => nofun, fun surface => ?_⟩, hinitial, hinitial⟩
  exact ⟨fun hmem => absurd hmem (Finset.notMem_empty _), fun hand => absurd hand.1 hand.2⟩

/-- **Every run leaves what its loads have built, apart from its notes.** -/
theorem Run.sound {stod : Bytes → Option Double} {calls : List Call} {c : Converter}
    (h : Run stod calls c) : Sound c (loadsAlone stod calls) := by
  induction h with
  | start => exact sound_initial
  | @step calls c c' call _ hstep ih =>
    -- A call that loads nothing leaves the loads alone.
    have hsame : call.loaded = none → loadsAlone stod (calls ++ [call]) = loadsAlone stod calls := by
      intro hnone
      unfold loadsAlone
      rw [List.filterMap_append, List.filterMap_cons_none hnone, List.filterMap_nil,
        List.append_nil]
    cases call with
    | loadFromTsv file =>
      rw [show c' = (SimpleConverter.loadFromTsv stod c file).1 from hstep]
      have hloads : loadsAlone stod (calls ++ [Call.loadFromTsv file])
          = (SimpleConverter.loadFromTsv stod ((calls.filterMap Call.loaded).foldl
              (fun c file => (SimpleConverter.loadFromTsv stod c file).1) initial) file).1.dictionary := by
        unfold loadsAlone
        rw [List.filterMap_append, List.foldl_append]
        rfl
      rw [hloads]
      exact ih.loadFromTsv stod file
    | learn surface reading =>
      rw [hsame rfl, show c' = SimpleConverter.learn c surface reading from hstep]
      exact ih.learn surface reading
    | commit selected =>
      rw [hsame rfl, show c' = SimpleConverter.commit c selected from hstep]
      exact ih.learn selected.surface selected.reading
    | forget reading surface =>
      rw [hsame rfl, show c' = SimpleConverter.forget c reading surface from hstep]
      exact ih.forget reading surface
    | resetLearned =>
      rw [hsame rfl]
      exact (ih.resetLearned hstep).1

/-- **Learning is undone.** After every run, `Contains` answers for the built-in
entries and the loads alone, and a reset leaves exactly the dictionary that
these build. Forgetting a pair leaves the candidates of every other pair, and
of the pair itself those of the loads. -/
theorem learning_is_undone (stod : Bytes → Option Double) (calls : List Call) (c : Converter)
    (h : Run stod calls c) :
    (∀ reading surface, contains c reading surface = true
      ↔ Has (bucket (loadsAlone stod calls) reading) surface)
    ∧ (∀ c', ResetLearned c c' → c'.dictionary = loadsAlone stod calls)
    ∧ ∀ reading surface,
      (∀ other, other ≠ reading →
        (forget c reading surface).dictionary.find? other = c.dictionary.find? other)
      ∧ (bucket (forget c reading surface).dictionary reading).filter (fun a => a.surface ≠ surface)
          = (bucket c.dictionary reading).filter (fun a => a.surface ≠ surface)
      ∧ (bucket (forget c reading surface).dictionary reading).filter (fun a => a.surface = surface)
          = (bucket (loadsAlone stod calls) reading).filter (fun a => a.surface = surface) := by
  have hsound := h.sound
  refine ⟨fun reading surface => ?_, fun c' hreset => ?_, fun reading surface => ⟨?_, ?_, ?_⟩⟩
  · have hat := hsound.at_reading reading
    unfold contains
    rw [Bool.and_eq_true, decide_eq_true_eq, decide_eq_true_eq]
    show _ ∧ ¬ LearnedOnly c reading surface ↔ _
    rw [hat.only_iff, not_and, not_not]
    exact ⟨fun hand => hand.2 hand.1, fun hhas => ⟨hat.has_of_lexicon hhas, fun _ => hhas⟩⟩
  · obtain ⟨hsound', hnone⟩ := hsound.resetLearned hreset
    refine eq_of_bucket hsound'.noEmptyEntry hsound'.lexicon_noEmptyEntry (fun reading => ?_)
    rw [← (hsound'.at_reading reading).restored, List.restore_of_none (hnone reading)]
  · intro other hother
    cases hnote : notes c reading surface with
    | none => rw [forget_of_none hnote]
    | some original =>
      rw [forget_of_some hnote]
      show (actOn c.dictionary reading surface original).find? other = _
      unfold actOn setBucket
      split
      · rfl
      · split
        · rw [OrderedMap.find?_erase, if_neg hother]
        · rw [OrderedMap.find?_assign, if_neg hother]
  · cases hnote : notes c reading surface with
    | none => rw [forget_of_none hnote]
    | some original =>
      rw [forget_of_some hnote]
      show (bucket (actOn c.dictionary reading surface original) reading).filter _ = _
      rw [bucket_actOn, if_pos rfl]
      exact List.filter_editFirst
        (fun a _ _ b hb => (hsound.at_reading reading).keys_original hnote b hb)
        (fun a ha => by simpa using ha)
  · have hat := (hsound.forget reading surface).at_reading reading
    refine hat.filter_eq ?_
    rw [notes_forget, if_pos rfl, Function.update_self]

/-- A word that is learned, loaded from a file, and learned again: the reset
leaves the row of the file. -/
theorem learning_is_undone_oneWord :
    let stod : Bytes → Option Double := fun _ => some (literal 1)
    let file := some (utf8 "b\ta\t1\n")
    let calls := [Call.learn [0x61] [0x62], .loadFromTsv file, .learn [0x61] [0x62]]
    let c := learn (loadFromTsv stod (learn initial [0x61] [0x62]) file).1 [0x61] [0x62]
    (contains c [0x62] [0x61] = true ↔ Has (bucket (loadsAlone stod calls) [0x62]) [0x61])
      ∧ ((learnedPairs c).foldl (fun c p => forget c p.1 p.2) c).dictionary
        = loadsAlone stod calls := by
  intro stod file calls c
  have hrun : Run stod calls c :=
    .step (.learn [0x61] [0x62]) (.step (.loadFromTsv file) (.step (.learn [0x61] [0x62]) .start rfl)
      rfl) rfl
  have h := learning_is_undone stod calls c hrun
  exact ⟨h.1 _ _, h.2.1 _ ⟨_, .refl _, rfl⟩⟩

end AzooKey.Core.SimpleConverter

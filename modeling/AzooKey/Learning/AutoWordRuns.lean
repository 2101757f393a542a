import AzooKey.Learning.AutoWordStore
import AzooKey.Learning.ProtectedFile

/-!
# Runs of the store of new words

The operations of `AutoWordStore` as calls on a store and its files. A call that
saves or loads is a program over the protected files, any of whose steps may
fail; the other calls only touch the table. Each call holds the writer lock
from its first step to its last, so a run is one call after the other.

A word that the user has rejected must not come back. `LeftAlone` are the
continuations of a run that do not decide the word anew: they may observe it,
find it in a trending list, import it, prune, and save and load the table, with
any failure on the way. `rejected_stays_rejected` says that the word is rejected
after each of them, and what the two saving calls leave in memory and on disk.
-/

namespace AzooKey.Learning.AutoWord

open Interactive

/-! ## Calls -/

/-- `AutoWordSaveOutcome`. -/
inductive SaveOutcome
  | changed
  | unchanged
  | notFound
  | saveFailed
deriving DecidableEq

/-- **The members of an `AutoWordStore`** that a call may change. -/
structure Store where
  table : Table := .empty
  saveBlockedByLoadFailure : Bool := false

/-- `SaveSnapshot`. -/
def saveSnapshot (s : Store) (t : Table) : Program Bool :=
  if s.saveBlockedByLoadFailure then pure false else writeProtectedText (serializeTable t)

/-- `Save`. -/
def save (s : Store) : Program Bool := saveSnapshot s s.table

/-- **`SetStateAndSave`**: the new table is published once it is saved. -/
def setStateAndSave (s : Store) (surface reading : Bytes) (state : State) :
    Program (SaveOutcome × Store) :=
  match findLocked s.table surface reading with
  | none => pure (.notFound, s)
  | some word =>
    if word.state = state then pure (.unchanged, s)
    else do
      let replacement := withState s.table surface reading state
      if ← saveSnapshot s replacement then pure (.changed, { s with table := replacement })
      else pure (.saveFailed, s)

/-- **`ResetAndSave`.** -/
def resetAndSave (s : Store) : Program (Bool × Store) := do
  if ← saveSnapshot s .empty then pure (true, { s with table := .empty }) else pure (false, s)

/-- **`Load`.** A file that cannot be read leaves an empty table that refuses to
be saved. -/
def load : Program (Bool × Store) := do
  let (source, text) ← readProtectedText
  match source with
  | .missing => pure (true, ⟨.empty, false⟩)
  | .error => pure (false, ⟨.empty, true⟩)
  | .encrypted => pure (true, ⟨(parseText text).2, false⟩)
  | .plaintext =>
    let migrated ← migratePlaintextFile text
    pure (migrated, ⟨(parseText text).2, !migrated⟩)

/-- **The calls that may change a store.** -/
inductive Call
  | observe (surface reading : Bytes) (nowEpoch : UInt64) (promoteThreshold : UInt32)
      (autoPromote : Bool)
  | ingestTrending (batch : List Word) (nowEpoch : UInt64) (autoPromote : Bool)
  | prunePending (nowEpoch maxAgeSec : UInt64)
  | merge (other : Table) (policy : ImportConflictPolicy)
  | confirm (surface reading : Bytes)
  | reject (surface reading : Bytes)
  | setState (surface reading : Bytes) (state : State)
  | compareAndSetState (surface reading : Bytes) (expected desired : State)
  | setStateAndSave (surface reading : Bytes) (state : State)
  | reset
  | resetAndSave
  | save
  | load

/-- What a call returns. -/
inductive Reply
  | done
  | answer (ok : Bool)
  | previous (state : Option State)
  | removed (count : ℕ)
  | imported (counts : ImportCounts)
  | outcome (outcome : SaveOutcome)

/-- A call that only touches the table. -/
def touch (s : Store) (reply : Reply) (t : Table) : Program (Reply × Store) :=
  pure (reply, { s with table := t })

/-- **What a call does.** -/
def perform (s : Store) : Call → Program (Reply × Store)
  | .observe surface reading now threshold promote =>
    let r := observe s.table surface reading now threshold promote
    touch s (.answer r.2) r.1
  | .ingestTrending batch now promote => touch s .done (ingestTrending s.table batch now promote)
  | .prunePending now maxAge =>
    let r := prunePending s.table now maxAge
    touch s (.removed r.2) r.1
  | .merge other policy =>
    let r := merge s.table other policy
    touch s (.imported r.2) r.1
  | .confirm surface reading =>
    let r := confirm s.table surface reading
    touch s (.answer r.2) r.1
  | .reject surface reading =>
    let r := reject s.table surface reading
    touch s (.answer r.2) r.1
  | .setState surface reading state =>
    let r := setState s.table surface reading state
    touch s (.previous r.2) r.1
  | .compareAndSetState surface reading expected desired =>
    let r := compareAndSetState s.table surface reading expected desired
    touch s (.answer r.2) r.1
  | .setStateAndSave surface reading state =>
    setStateAndSave s surface reading state >>= fun r => pure (.outcome r.1, r.2)
  | .reset => touch s .done .empty
  | .resetAndSave => resetAndSave s >>= fun r => pure (.answer r.1, r.2)
  | .save => save s >>= fun ok => pure (.answer ok, s)
  | .load => load >>= fun r => pure (.answer r.1, r.2)

/-! ## Runs -/

/-- A store and its files. -/
structure Config where
  store : Store
  files : Files

/-- **One call**, with anything that may fail on the way. -/
def Step (crypto : ByteCrypto) (c : Config) (call : Call) (reply : Reply) (c' : Config) : Prop :=
  ∃ trace, Runs (mayFail crypto) (perform c.store call) c.files trace (some (reply, c'.store))
    ∧ trace.getLast? = some c'.files

/-- What the callers promise: a sighting has a surface and a reading, a trending
word has a finite score, and what is imported was read from a text. -/
def Call.Valid : Call → Prop
  | .observe surface reading _ _ _ => surface ≠ [] ∧ reading ≠ []
  | .ingestTrending batch _ _ => ∀ word ∈ batch, word.score.isFinite = true
  | .merge other _ => Readable other
  | _ => True

/-- **The states of all runs**, from a fresh store over any files. -/
inductive Reached (crypto : ByteCrypto) : Config → Prop
  | start (files : Files) : Reached crypto ⟨{}, files⟩
  | step {c c' : Config} {call : Call} {reply : Reply} :
      Reached crypto c → call.Valid → Step crypto c call reply c' → Reached crypto c'

/-- A call decides a word anew: it names the word and its state, it overwrites
from another store, or it empties the table. -/
def Call.Overrides (surface reading : Bytes) : Call → Prop
  | .merge _ policy => policy = .overwrite
  | .confirm s r | .setState s r _ | .compareAndSetState s r _ _ | .setStateAndSave s r _ =>
    s = surface ∧ r = reading
  | .reset | .resetAndSave => True
  | _ => False

/-- A call reports that it has written the table. -/
def Call.Saves : Call → Reply → Bool
  | .save, .answer ok => ok
  | .setStateAndSave _ _ _, .outcome outcome => outcome = .changed
  | _, _ => false

/-- **A continuation that leaves a word alone.** The flag says whether the table
was saved in it: a load reads a text that was, and reads it. -/
inductive LeftAlone (crypto : ByteCrypto) (surface reading : Bytes) (c : Config) :
    Bool → Config → Prop
  | start : LeftAlone crypto surface reading c false c
  | step {saved : Bool} {c₁ c₂ : Config} {call : Call} {reply : Reply} :
      LeftAlone crypto surface reading c saved c₁ → call.Valid →
        ¬ call.Overrides surface reading →
        (call = .load → saved = true ∧ reply = .answer true) → Step crypto c₁ call reply c₂ →
        LeftAlone crypto surface reading c (saved || call.Saves reply) c₂

/-- **The table says that a word is rejected.** -/
def Rejects (t : Table) (surface reading : Bytes) : Prop :=
  ∃ word, findLocked t surface reading = some word ∧ word.state = .rejected

/-- Whether a word is rejected can be looked up. -/
instance (t : Table) (surface reading : Bytes) : Decidable (Rejects t surface reading) :=
  decidable_of_iff ((findLocked t surface reading).map Word.state = some .rejected)
    Option.map_eq_some_iff

/-! ## The table -/

section Table

variable {t : Table} {surface reading : Bytes}

/-- A rejected word is not found confirmed. -/
theorem Rejects.lookupConfirmed (h : Rejects t surface reading) (hreadable : Readable t) :
    ∀ word ∈ lookupConfirmed t reading, word.surface ≠ surface := by
  intro word hword heq
  obtain ⟨rejected, hfound, hstate⟩ := h
  obtain ⟨hmem, hconfirmed⟩ := List.mem_filter.mp hword
  obtain ⟨⟨key, value⟩, hentry, rfl⟩ := List.mem_map.mp hmem
  have hlookup : NestedMap.lookup t reading key = some value :=
    (NestedMap.bucket t reading).find?_eq_some_iff.mpr hentry
  have hkey : key = surface := ((hreadable.entry _ _ _ hlookup).surface_eq.symm).trans heq
  rw [hkey] at hlookup
  obtain rfl := Option.some.inj (hlookup.symm.trans hfound)
  rw [hstate] at hconfirmed
  cases of_decide_eq_true hconfirmed

/-- A word is still rejected when another one changes. -/
theorem Rejects.put {s r : Bytes} {word : Word} (h : Rejects t surface reading)
    (hword : s = surface → r = reading → word.state = .rejected) :
    Rejects (NestedMap.put t r s word) surface reading := by
  obtain ⟨rejected, hfound, hstate⟩ := h
  unfold Rejects findLocked
  rw [NestedMap.lookup_put]
  by_cases hkey : reading = r ∧ surface = s
  · rw [if_pos hkey]
    exact ⟨word, rfl, hword hkey.2.symm hkey.1.symm⟩
  · rw [if_neg hkey]
    exact ⟨rejected, hfound, hstate⟩

/-- A word is still rejected when one comes in where there is none. -/
theorem Rejects.emplace {s r : Bytes} {word : Word} (h : Rejects t surface reading)
    (hnone : findLocked t s r = none) : Rejects (NestedMap.emplace t r s word) surface reading := by
  obtain ⟨rejected, hfound, hstate⟩ := h
  refine ⟨rejected, ?_, hstate⟩
  unfold findLocked at hfound hnone ⊢
  rw [NestedMap.lookup_emplace, if_neg ?_]
  · exact hfound
  · rintro ⟨rfl, rfl⟩
    rw [hfound] at hnone
    cases hnone

/-- A word that is found rejected is the rejected one; one that is not is
another. -/
theorem Rejects.state_of_findLocked {s r : Bytes} {word : Word} (h : Rejects t surface reading)
    (hfound : findLocked t s r = some word) (hs : s = surface) (hr : r = reading) :
    word.state = .rejected := by
  obtain ⟨rejected, hrejected, hstate⟩ := h
  subst hs
  subst hr
  obtain rfl := Option.some.inj (hrejected.symm.trans hfound)
  exact hstate

/-- A sighting does not bring a rejected word back. -/
theorem Rejects.observe (h : Rejects t surface reading) (s r : Bytes) (nowEpoch : UInt64)
    (promoteThreshold : UInt32) (autoPromote : Bool) :
    Rejects (observe t s r nowEpoch promoteThreshold autoPromote).1 surface reading := by
  unfold AutoWord.observe
  split
  · rename_i existing hfound
    dsimp only
    split
    · exact h
    · rename_i hstate
      split
      · exact h.put (fun hs hr => absurd (h.state_of_findLocked hfound hs hr) hstate)
      · exact h.put (fun hs hr => absurd (h.state_of_findLocked hfound hs hr) hstate)
  · rename_i hnone
    exact h.emplace hnone

/-- A trending list does not bring a rejected word back. -/
theorem Rejects.ingestTrending (h : Rejects t surface reading) (batch : List Word)
    (nowEpoch : UInt64) (autoPromote : Bool) :
    Rejects (ingestTrending t batch nowEpoch autoPromote) surface reading := by
  unfold AutoWord.ingestTrending
  induction batch generalizing t with
  | nil => exact h
  | cons incoming batch ih =>
    refine ih ?_
    unfold ingestWord
    split
    · exact h
    · split
      · rename_i existing hfound
        split
        · exact h
        · rename_i hstate
          exact h.put (fun hs hr => absurd (h.state_of_findLocked hfound hs hr) hstate)
      · rename_i hnone
        exact h.emplace hnone

/-- Pruning takes away pending words only. -/
theorem Rejects.prunePending (h : Rejects t surface reading) (nowEpoch maxAgeSec : UInt64) :
    Rejects (prunePending t nowEpoch maxAgeSec).1 surface reading := by
  obtain ⟨word, hfound, hstate⟩ := h
  have hkept : (!expired nowEpoch maxAgeSec word) = true := by
    unfold expired
    rw [hstate]
    rfl
  refine ⟨word, ?_, hstate⟩
  show NestedMap.lookup (NestedMap.filter t (fun _ _ word => !expired nowEpoch maxAgeSec word))
    reading surface = some word
  rw [NestedMap.lookup_filter]
  exact Option.filter_eq_some_iff.mpr ⟨hfound, hkept⟩

/-- An import that does not overwrite does not bring a rejected word back. -/
theorem Rejects.merge (h : Rejects t surface reading) (other : Table)
    {policy : ImportConflictPolicy} (hpolicy : policy ≠ .overwrite) :
    Rejects (merge t other policy).1 surface reading := by
  have hfold : ∀ (rows : List (Bytes × Bytes × Word)) (acc : Table × ImportCounts),
      Rejects acc.1 surface reading →
        Rejects (rows.foldl (mergeRow policy) acc).1 surface reading := by
    intro rows
    induction rows with
    | nil => exact fun acc h => h
    | cons row rows ih =>
      intro acc h
      refine ih _ ?_
      unfold mergeRow
      dsimp only
      split
      · rename_i hnone
        refine h.put (fun hs hr => ?_)
        obtain ⟨rejected, hfound, -⟩ := h
        rw [hs, hr] at hnone
        cases hnone.symm.trans hfound
      · rename_i existing hfound
        split
        · exact h.put (fun hs hr =>
            show existing.state = .rejected from h.state_of_findLocked hfound hs hr)
        · exact absurd rfl hpolicy
        · exact h
  exact hfold _ (t, {}) h

/-- A new state for another word, or the same state again. -/
theorem Rejects.withState (h : Rejects t surface reading) {s r : Bytes} {state : State}
    (hstate : s = surface → r = reading → state = .rejected) :
    Rejects (withState t s r state) surface reading := by
  unfold AutoWord.withState
  split
  · exact h.put hstate
  · exact h

/-- What `SetStateLocked` does to the table. -/
theorem setStateLocked_table (t : Table) (s r : Bytes) (state : State) :
    (setStateLocked t s r state).1 = t ∨ (setStateLocked t s r state).1 = withState t s r state := by
  unfold setStateLocked
  split
  · exact Or.inl rfl
  · split
    · exact Or.inl rfl
    · exact Or.inr rfl

end Table

/-! ## The files -/

section Files

variable {crypto : ByteCrypto} {files : Files}

/-- **What a save leaves on disk**: what was there or the new text, and the new
text if it succeeds. -/
theorem safe_saveSnapshot (s : Store) (t : Table) : Safe (mayFail crypto) (fun _ => True)
    (fun ok files' => (files'.enc = files.enc ∨ crypto.Holds files' (serializeTable t))
      ∧ (ok = true → crypto.Holds files' (serializeTable t))) (saveSnapshot s t) files := by
  unfold saveSnapshot
  split
  · exact .pure trivial ⟨Or.inl rfl, fun h => absurd h Bool.false_ne_true⟩
  · refine ((safe_writeProtectedText (serializeTable t)).imp (fun ok files' hI hQ => ?_)).mono
      (fun _ _ => trivial)
    refine ⟨?_, fun hok => (hQ hok).1⟩
    rcases hI with (rfl | ⟨rfl, -⟩) | ⟨files₁, -, -, cipher, hcipher, rfl⟩
    · exact Or.inl rfl
    · exact Or.inl rfl
    · exact Or.inr ⟨cipher, rfl, hcipher⟩

/-- A file that holds a text is read as that text, or not at all. -/
theorem safe_readProtectedText_of_holds {text : Bytes} (h : crypto.Holds files text) :
    Safe (mayFail crypto) (fun _ => True)
      (fun r files' => files' = files ∧ (r.1 = .error ∨ r = (.encrypted, text)))
      readProtectedText files := by
  obtain ⟨cipher, henc, hcipher⟩ := h
  refine (safe_exists .enc trivial).bind (fun enc files₁ _ h₁ => ?_)
  obtain ⟨rfl, h₁⟩ := h₁
  cases enc with
  | none => exact .pure trivial ⟨rfl, Or.inl rfl⟩
  | some enc =>
    have henc' : enc = true := by
      rw [h₁ enc rfl]
      show files₁.enc.isSome = true
      rw [henc]
      rfl
    subst henc'
    refine (safe_decryptFile trivial).bind (fun answer files₂ _ h₂ => ?_)
    obtain ⟨rfl, h₂⟩ := h₂
    cases answer with
    | none => exact .pure trivial ⟨rfl, Or.inl rfl⟩
    | some read =>
      obtain ⟨cipher', henc', hread⟩ := h₂ read rfl
      obtain rfl := Option.some.inj (henc.symm.trans henc')
      obtain rfl := Option.some.inj (hcipher.symm.trans hread)
      exact .pure trivial ⟨rfl, Or.inr rfl⟩

/-- **What a load makes of a text on disk.** -/
theorem safe_load_of_holds {text : Bytes} (h : crypto.Holds files text) :
    Safe (mayFail crypto) (fun _ => True)
      (fun r files' => files' = files ∧ (r.1 = true → r.2.table = (loadText text).2)) load files := by
  refine (safe_readProtectedText_of_holds h).bind (fun r files' _ hr => ?_)
  obtain ⟨source, read⟩ := r
  obtain ⟨rfl, herror | hread⟩ := hr
  · cases herror
    exact .pure trivial ⟨rfl, fun h => absurd h Bool.false_ne_true⟩
  · obtain ⟨rfl, rfl⟩ := Prod.mk.inj hread
    exact .pure trivial ⟨rfl, fun _ => rfl⟩

/-- A load leaves readable rows. -/
theorem safe_load : Safe (mayFail crypto) (fun _ => True)
    (fun r _ => Readable r.2.table) load files := by
  refine (safe_true readProtectedText files).bind (fun r files' _ _ => ?_)
  obtain ⟨source, text⟩ := r
  cases source with
  | missing => exact .pure trivial NestedMap.holds_empty
  | error => exact .pure trivial NestedMap.holds_empty
  | encrypted => exact .pure trivial (readable_loadText text)
  | plaintext =>
    exact (safe_true (migratePlaintextFile text) files').bind
      (fun migrated files₂ _ _ => .pure trivial (readable_loadText text))

/-- **`SetStateAndSave`**: the outcome, and what it says of memory and disk. -/
theorem safe_setStateAndSave (s : Store) (surface reading : Bytes) (state : State) :
    Safe (mayFail crypto) (fun _ => True)
      (fun r files' =>
        (r.2.table = s.table ∧ r.1 ≠ .changed
          ∨ r.1 = .changed ∧ r.2.table = withState s.table surface reading state
            ∧ crypto.Holds files' (serializeTable r.2.table))
        ∧ (files'.enc = files.enc
          ∨ crypto.Holds files' (serializeTable (withState s.table surface reading state))))
      (setStateAndSave s surface reading state) files := by
  unfold setStateAndSave
  split
  · exact .pure trivial ⟨Or.inl ⟨rfl, nofun⟩, Or.inl rfl⟩
  · split
    · exact .pure trivial ⟨Or.inl ⟨rfl, nofun⟩, Or.inl rfl⟩
    · refine (safe_saveSnapshot s (withState s.table surface reading state)).bind
        (fun ok files' _ h => ?_)
      cases ok with
      | true => exact .pure trivial ⟨Or.inr ⟨rfl, rfl, h.2 rfl⟩, h.1⟩
      | false => exact .pure trivial ⟨Or.inl ⟨rfl, nofun⟩, h.1⟩

/-- **`ResetAndSave`.** -/
theorem safe_resetAndSave (s : Store) : Safe (mayFail crypto) (fun _ => True)
    (fun r files' => r.1 = false ∧ r.2.table = s.table
      ∨ r.1 = true ∧ r.2.table = .empty ∧ crypto.Holds files' (serializeTable .empty))
    (resetAndSave s) files := by
  refine (safe_saveSnapshot s .empty).bind (fun ok files' _ h => ?_)
  cases ok with
  | true => exact .pure trivial (Or.inr ⟨rfl, rfl, h.2 rfl⟩)
  | false => exact .pure trivial (Or.inl ⟨rfl, rfl⟩)

/-- What holds after a call of every result of its program. -/
theorem Step.of_safe {c c' : Config} {call : Call} {reply : Reply}
    (h : Step crypto c call reply c') {Q : Reply × Store → Files → Prop}
    (hsafe : Safe (mayFail crypto) (fun _ => True) Q (perform c.store call) c.files) :
    Q (reply, c'.store) c'.files := by
  obtain ⟨trace, hruns, hlast⟩ := h
  obtain ⟨last, hlast', hQ⟩ := (hsafe.runs hruns).2 _ rfl
  obtain rfl := Option.some.inj (hlast.symm.trans hlast')
  exact hQ

end Files

/-! ## Whole runs -/

/-- The file holds a table in which a word is rejected. -/
def RejectsOnDisk (crypto : ByteCrypto) (files : Files) (surface reading : Bytes) : Prop :=
  ∃ t, Readable t ∧ Rejects t surface reading ∧ crypto.Holds files (serializeTable t)

/-- Only the encrypted file counts. -/
theorem RejectsOnDisk.congr {crypto : ByteCrypto} {files files' : Files} {surface reading : Bytes}
    (h : RejectsOnDisk crypto files surface reading) (henc : files'.enc = files.enc) :
    RejectsOnDisk crypto files' surface reading := by
  obtain ⟨t, hreadable, hrejects, cipher, hcipher, hdecrypt⟩ := h
  exact ⟨t, hreadable, hrejects, cipher, henc.trans hcipher, hdecrypt⟩

section Runs

variable {crypto : ByteCrypto} {s : Store} {files : Files} {surface reading : Bytes}

/-- **A call keeps the rows readable.** -/
theorem safe_perform_readable (h : Readable s.table) {call : Call} (hvalid : call.Valid) :
    Safe (mayFail crypto) (fun _ => True) (fun r _ => Readable r.2.table) (perform s call)
      files := by
  have hlocked : ∀ surface reading state,
      Readable (setStateLocked s.table surface reading state).1 := by
    intro surface reading state
    rcases setStateLocked_table s.table surface reading state with heq | heq <;> rw [heq]
    · exact h
    · exact h.withState surface reading state
  cases call with
  | observe surface reading now threshold promote =>
    exact .pure trivial (h.observe hvalid.1 hvalid.2 now threshold promote)
  | ingestTrending batch now promote => exact .pure trivial (h.ingestTrending hvalid now promote)
  | prunePending now maxAge =>
    exact .pure trivial (NestedMap.Holds.filter h (fun _ _ word => !expired now maxAge word))
  | merge other policy => exact .pure trivial (h.merge hvalid policy)
  | confirm surface reading => exact .pure trivial (hlocked surface reading .confirmed)
  | reject surface reading => exact .pure trivial (hlocked surface reading .rejected)
  | setState surface reading state => exact .pure trivial (h.withState surface reading state)
  | compareAndSetState surface reading expected desired =>
    refine .pure trivial ?_
    show Readable (compareAndSetState s.table surface reading expected desired).1
    unfold compareAndSetState
    split
    · exact h.withState surface reading desired
    · exact h
  | setStateAndSave surface reading state =>
    refine (safe_setStateAndSave s surface reading state).bind (fun r files' _ hr => ?_)
    refine .pure trivial ?_
    rcases hr.1 with ⟨heq, -⟩ | ⟨-, heq, -⟩ <;> show Readable r.2.table <;> rw [heq]
    · exact h
    · exact h.withState surface reading state
  | reset => exact .pure trivial NestedMap.holds_empty
  | resetAndSave =>
    refine (safe_resetAndSave s).bind (fun r files' _ hr => .pure trivial ?_)
    rcases hr with ⟨-, heq⟩ | ⟨-, heq, -⟩ <;> show Readable r.2.table <;> rw [heq]
    · exact h
    · exact NestedMap.holds_empty
  | save => exact (safe_true (save s) files).bind (fun ok files' _ _ => .pure trivial h)
  | load => exact safe_load.bind (fun r files' _ hr => .pure trivial hr)

/-- **Every table that a run reaches is readable.** -/
theorem Reached.readable {c : Config} (h : Reached crypto c) : Readable c.store.table := by
  induction h with
  | start files => exact NestedMap.holds_empty
  | step _ hvalid hstep ih => exact hstep.of_safe (safe_perform_readable ih hvalid)

/-- **A call that leaves a word alone leaves it rejected**, in memory and in what
it writes. (A load is looked at by itself.) -/
theorem safe_perform_rejects (h : Readable s.table) (hrejects : Rejects s.table surface reading)
    {call : Call} (hload : call ≠ .load) (hspares : ¬ call.Overrides surface reading) :
    Safe (mayFail crypto) (fun _ => True)
      (fun r files' => Rejects r.2.table surface reading
        ∧ (files'.enc = files.enc ∨ RejectsOnDisk crypto files' surface reading)
        ∧ (call.Saves r.1 = true → RejectsOnDisk crypto files' surface reading))
      (perform s call) files := by
  -- A call that only touches the table writes nothing.
  have htouch : ∀ {reply : Reply} {t : Table}, Rejects t surface reading →
      call.Saves reply = false → Safe (mayFail crypto) (fun _ => True)
        (fun r files' => Rejects r.2.table surface reading
          ∧ (files'.enc = files.enc ∨ RejectsOnDisk crypto files' surface reading)
          ∧ (call.Saves r.1 = true → RejectsOnDisk crypto files' surface reading))
        (touch s reply t) files :=
    fun ht hsaves => .pure trivial ⟨ht, Or.inl rfl,
      fun hsaved => absurd (hsaves.symm.trans hsaved) Bool.false_ne_true⟩
  have hlocked : ∀ {s' r' : Bytes} {state : State},
      (s' = surface → r' = reading → state = .rejected) →
        Rejects (setStateLocked s.table s' r' state).1 surface reading := by
    intro s' r' state hstate
    rcases setStateLocked_table s.table s' r' state with heq | heq <;> rw [heq]
    · exact hrejects
    · exact hrejects.withState hstate
  cases call with
  | observe s' r' now threshold promote =>
    exact htouch (hrejects.observe s' r' now threshold promote) rfl
  | ingestTrending batch now promote =>
    exact htouch (hrejects.ingestTrending batch now promote) rfl
  | prunePending now maxAge => exact htouch (hrejects.prunePending now maxAge) rfl
  | merge other policy => exact htouch (hrejects.merge other hspares) rfl
  | confirm s' r' => exact htouch (hlocked (fun hs hr => absurd ⟨hs, hr⟩ hspares)) rfl
  | reject s' r' => exact htouch (hlocked (fun _ _ => rfl)) rfl
  | setState s' r' state =>
    exact htouch (hrejects.withState (fun hs hr => absurd ⟨hs, hr⟩ hspares)) rfl
  | compareAndSetState s' r' expected desired =>
    refine htouch ?_ rfl
    unfold compareAndSetState
    split
    · exact hrejects.withState (fun hs hr => absurd ⟨hs, hr⟩ hspares)
    · exact hrejects
  | setStateAndSave s' r' state =>
    have hnew : Rejects (withState s.table s' r' state) surface reading :=
      hrejects.withState (fun hs hr => absurd ⟨hs, hr⟩ hspares)
    have hreadable : Readable (withState s.table s' r' state) := h.withState s' r' state
    refine (safe_setStateAndSave s s' r' state).bind (fun r files' _ hr => .pure trivial ?_)
    refine ⟨?_, hr.2.imp_right (fun hholds => ⟨_, hreadable, hnew, hholds⟩), fun hsaved => ?_⟩
    · rcases hr.1 with ⟨heq, -⟩ | ⟨-, heq, -⟩ <;> show Rejects r.2.table surface reading <;>
        rw [heq]
      · exact hrejects
      · exact hnew
    · rcases hr.1 with ⟨-, hne⟩ | ⟨-, heq, hholds⟩
      · exact absurd (of_decide_eq_true hsaved) hne
      · rw [heq] at hholds
        exact ⟨_, hreadable, hnew, hholds⟩
  | reset => exact absurd trivial hspares
  | resetAndSave => exact absurd trivial hspares
  | save =>
    refine (safe_saveSnapshot s s.table).bind (fun ok files' _ hok => .pure trivial ?_)
    exact ⟨hrejects, hok.1.imp_right (fun hholds => ⟨_, h, hrejects, hholds⟩),
      fun hsaved => ⟨_, h, hrejects, hok.2 hsaved⟩⟩
  | load => exact absurd rfl hload

/-- **Along a continuation that leaves a word alone it stays rejected**, in memory
and in every text that was saved. -/
theorem LeftAlone.rejects {c c' : Config} {saved : Bool} (h : Readable c.store.table)
    (hrejects : Rejects c.store.table surface reading)
    (hrun : LeftAlone crypto surface reading c saved c') :
    Readable c'.store.table ∧ Rejects c'.store.table surface reading
      ∧ (saved = true → RejectsOnDisk crypto c'.files surface reading) := by
  induction hrun with
  | start => exact ⟨h, hrejects, fun hsaved => absurd hsaved Bool.false_ne_true⟩
  | @step saved c₁ c₂ call reply _ hvalid hspares hloads hstep ih =>
    obtain ⟨hreadable, hrejects₁, hdisk⟩ := ih
    have hreadable₂ := hstep.of_safe (safe_perform_readable hreadable hvalid)
    by_cases hload : call = .load
    · subst hload
      obtain ⟨hsaved, rfl⟩ := hloads rfl
      obtain ⟨t, ht, htrejects, hholds⟩ := hdisk hsaved
      have hresult := hstep.of_safe (Q := fun r files' => files' = c₁.files
          ∧ (r.1 = .answer true → r.2.table = (loadText (serializeTable t)).2))
        ((safe_load_of_holds hholds).bind (fun r files' _ hr => .pure trivial
          ⟨hr.1, fun heq => hr.2 (Reply.answer.inj heq)⟩))
      have htable : c₂.store.table = t := by
        rw [hresult.2 rfl, loadText_serializeTable ht]
      refine ⟨hreadable₂, htable ▸ htrejects, fun _ => ?_⟩
      exact (hdisk hsaved).congr (congrArg Files.enc hresult.1)
    · obtain ⟨hrejects₂, hfiles, hsaves⟩ :=
        hstep.of_safe (safe_perform_rejects hreadable hrejects₁ hload hspares)
      refine ⟨hreadable₂, hrejects₂, fun hsaved => ?_⟩
      rcases Bool.or_eq_true_iff.mp hsaved with hsaved | hsaved
      · exact hfiles.elim (fun henc => (hdisk hsaved).congr henc) id
      · exact hsaves hsaved

end Runs

/-- **A rejected word stays rejected.** In every run, once a word is rejected it
is rejected, and not among the confirmed words of its reading, after every
continuation that leaves it alone. When `SetStateAndSave` or `ResetAndSave`
reports that it could not save, the table is as it was; when
`SetStateAndSave` reports the change, the text on disk is that of the
table. -/
theorem rejected_stays_rejected (crypto : ByteCrypto) (c : Config) (h : Reached crypto c) :
    (∀ surface reading, Rejects c.store.table surface reading →
      ∀ saved c', LeftAlone crypto surface reading c saved c' →
        Rejects c'.store.table surface reading
          ∧ ∀ word ∈ lookupConfirmed c'.store.table reading, word.surface ≠ surface)
    ∧ (∀ surface reading state c',
      Step crypto c (.setStateAndSave surface reading state) (.outcome .saveFailed) c' →
        c'.store.table = c.store.table)
    ∧ (∀ c', Step crypto c .resetAndSave (.answer false) c' → c'.store.table = c.store.table)
    ∧ ∀ surface reading state c',
      Step crypto c (.setStateAndSave surface reading state) (.outcome .changed) c' →
        ∃ text, crypto.Holds c'.files text ∧ loadText text = (true, c'.store.table) := by
  have hsave : ∀ {surface reading state outcome c'},
      Step crypto c (.setStateAndSave surface reading state) (.outcome outcome) c' →
        c'.store.table = c.store.table ∧ outcome ≠ .changed
          ∨ outcome = .changed ∧ crypto.Holds c'.files (serializeTable c'.store.table) := by
    intro surface reading state outcome c' hstep
    refine hstep.of_safe (Q := fun r files' => ∀ outcome, r.1 = .outcome outcome →
      r.2.table = c.store.table ∧ outcome ≠ .changed
        ∨ outcome = .changed ∧ crypto.Holds files' (serializeTable r.2.table)) ?_ outcome rfl
    refine (safe_setStateAndSave c.store surface reading state).bind
      (fun r files' _ hr => .pure trivial (fun outcome heq => ?_))
    obtain rfl := Reply.outcome.inj heq
    exact hr.1.imp id (fun hchanged => ⟨hchanged.1, hchanged.2.2⟩)
  refine ⟨fun surface reading hrejects saved c' hrun => ?_, fun surface reading state c' hstep => ?_,
    fun c' hstep => ?_, fun surface reading state c' hstep => ?_⟩
  · obtain ⟨hreadable, hrejects', -⟩ := hrun.rejects h.readable hrejects
    exact ⟨hrejects', hrejects'.lookupConfirmed hreadable⟩
  · exact (hsave hstep).elim (fun hsame => hsame.1) (fun hchanged => absurd hchanged.1 nofun)
  · refine hstep.of_safe (Q := fun r _ => r.1 = .answer false → r.2.table = c.store.table) ?_ rfl
    refine (safe_resetAndSave c.store).bind (fun r files' _ hr => .pure trivial (fun heq => ?_))
    rcases hr with ⟨-, hsame⟩ | ⟨htrue, -⟩
    · exact hsame
    · exact absurd (htrue.symm.trans (Reply.answer.inj heq)) (by decide)
  · rcases hsave hstep with ⟨-, hne⟩ | ⟨-, hholds⟩
    · exact absurd rfl hne
    · have hreadable : Readable c'.store.table :=
        hstep.of_safe (safe_perform_readable h.readable trivial)
      exact ⟨_, hholds, loadText_serializeTable hreadable⟩

/-- A word that was rejected and is seen again, often enough to be confirmed. -/
theorem rejected_stays_rejected_seenAgain :
    let seen := (observe .empty [0x61] [0x62] 1 2 true).1
    let rejected := (reject seen [0x61] [0x62]).1
    let again := (observe rejected [0x61] [0x62] 2 1 true).1
    Rejects rejected [0x61] [0x62] ∧ Rejects again [0x61] [0x62]
      ∧ ∀ word ∈ lookupConfirmed again [0x62], word.surface ≠ [0x61] := by
  intro seen rejected again
  have htouch : ∀ {s : Store} {files : Files} {call : Call} {reply : Reply} {t : Table},
      perform s call = touch s reply t →
        Step tagCrypto ⟨s, files⟩ call reply ⟨{ s with table := t }, files⟩ :=
    fun h => ⟨[_], h ▸ .done _ _, rfl⟩
  have hseen : Step tagCrypto ⟨{}, ⟨none, none, none⟩⟩ (.observe [0x61] [0x62] 1 2 true)
      (.answer (observe .empty [0x61] [0x62] 1 2 true).2) ⟨⟨seen, false⟩, ⟨none, none, none⟩⟩ :=
    htouch rfl
  have hreject : Step tagCrypto ⟨⟨seen, false⟩, ⟨none, none, none⟩⟩ (.reject [0x61] [0x62])
      (.answer (reject seen [0x61] [0x62]).2) ⟨⟨rejected, false⟩, ⟨none, none, none⟩⟩ :=
    htouch rfl
  have hagain : Step tagCrypto ⟨⟨rejected, false⟩, ⟨none, none, none⟩⟩
      (.observe [0x61] [0x62] 2 1 true) (.answer (observe rejected [0x61] [0x62] 2 1 true).2)
      ⟨⟨again, false⟩, ⟨none, none, none⟩⟩ := htouch rfl
  have hvalid : (Call.observe [0x61] [0x62] 1 2 true).Valid
      ∧ (Call.observe [0x61] [0x62] 2 1 true).Valid :=
    ⟨⟨by decide, by decide⟩, by decide, by decide⟩
  have hreached : Reached tagCrypto ⟨⟨rejected, false⟩, ⟨none, none, none⟩⟩ :=
    .step (.step (.start _) hvalid.1 hseen) (show (Call.reject [0x61] [0x62]).Valid from trivial)
      hreject
  have hrejects : Rejects rejected [0x61] [0x62] := by decide
  exact ⟨hrejects, (rejected_stays_rejected tagCrypto _ hreached).1 _ _ hrejects _ _
    (.step .start hvalid.2 (fun h => h) nofun hagain)⟩

end AzooKey.Learning.AutoWord

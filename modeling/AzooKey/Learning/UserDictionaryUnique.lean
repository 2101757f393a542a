import AzooKey.Learning.UserDictionary
import AzooKey.Learning.ProtectedFile

/-!
# One entry per word

The mutators of `UserDictionary` look a word up in its bucket before they put
it there, so that a bucket holds each word once; `Remove` relies on it, as it
takes out the first entry only. `LoadImpl` and `LoadText` put what the text
holds at the end of the buckets without a search.

`lawful_iff_distinct` says what follows for every sequence of operations: the
buckets hold each word once, and `Remove` and `Add` do what they say, in all
states if and only if no text that is loaded names a word twice under one
reading.
-/

namespace AzooKey.Learning

open Ipc Ipc.Json

namespace UserDictionary

/-! ## Loading a file -/

/-- What `LoadImpl` finds: the answer of `ReadProtectedText`, and whether a
plaintext can be migrated. -/
structure FileContents where
  source : ProtectedFileSource
  text : Bytes
  migrates : Bool

/-- The entries of a text, if it is a dictionary. -/
def entriesOf (text : Bytes) : Option (List Value) :=
  (parse text).bind (fun v => if v.isObject then v.getArray (utf8 "entries") else none)

/-- **`Load`**, with its answer. A plaintext that cannot be migrated leaves its
words in memory, although the load fails. -/
def load (d : UserDictionary) (file : FileContents) : Bool × UserDictionary :=
  let settled := file.source ≠ .plaintext || file.migrates
  match file.source with
  | .missing => (true, d.clear)
  | .error => (false, d.clear)
  | _ =>
    if file.text.isEmpty then (settled, d.clear)
    else
      match entriesOf file.text with
      | none => (false, d.clear)
      | some entries => (settled, ⟨loadEntries entries, d.revision + 1⟩)

/-! ## Sequences of operations -/

/-- An operation that changes a dictionary. -/
inductive Edit
  | load (file : FileContents)
  | loadText (text : Bytes)
  | add (w : UserWord)
  | merge (other : UserDictionary) (policy : ImportConflictPolicy)
  | replaceAll (entries : List UserWord)
  | remove (word ruby : Bytes)
  | clear

/-- The dictionary after an operation. -/
def edit (d : UserDictionary) : Edit → UserDictionary
  | .load file => (d.load file).2
  | .loadText text => (d.loadText text).2
  | .add w => (d.add w).2
  | .merge other policy => (d.merge other policy).2
  | .replaceAll entries => d.replaceAll entries
  | .remove word ruby => (d.remove word ruby).2
  | .clear => d.clear

/-- The dictionary after a sequence of operations. -/
def edits (d : UserDictionary) (es : List Edit) : UserDictionary := es.foldl edit d

/-- **Each bucket holds each word once.** -/
def Unique (words : OrderedMap Bytes (List UserWord)) : Prop :=
  ∀ ruby, ((bucket words ruby).map UserWord.word).Nodup

/-- **What the operations promise**: each bucket holds each word once, a word
that was removed is not found, and a word that was added is found once. -/
structure Lawful (d : UserDictionary) : Prop where
  unique : Unique d.byRuby
  remove : ∀ word ruby, (d.remove word ruby).1 = true →
    ∀ x ∈ (d.remove word ruby).2.lookup ruby, x.word ≠ word
  add : ∀ w, ((d.add w).2.lookup w.ruby).filter (fun x => x.word = w.word) = [w]

/-- The reading and the word of an entry. -/
def entryKey (w : UserWord) : Bytes × Bytes := (w.ruby, w.word)

/-- **A text that names no word twice** under one reading, as far as it is a
dictionary. -/
def DistinctText (text : Bytes) : Prop :=
  ∀ entries, entriesOf text = some entries → ((entries.filterMap wordFromJson).map entryKey).Nodup

/-- **An operation that loads no word twice.** A file that is missing or that
cannot be decrypted has no text. -/
def Edit.Distinct : Edit → Prop
  | .load file => file.source ≠ .missing → file.source ≠ .error → file.text ≠ [] →
      DistinctText file.text
  | .loadText text => DistinctText text
  | _ => True

/-! ## Buckets -/

section Buckets

variable {words : OrderedMap Bytes (List UserWord)}

/-- The buckets after one is replaced. -/
theorem bucket_assign (words : OrderedMap Bytes (List UserWord)) (r : Bytes) (b : List UserWord)
    (ruby : Bytes) : bucket (words.assign r b) ruby = if ruby = r then b else bucket words ruby := by
  unfold bucket
  rw [OrderedMap.find?_assign]
  by_cases h : ruby = r
  · rw [if_pos h, if_pos h, Option.getD_some]
  · rw [if_neg h, if_neg h]

/-- Uniqueness is kept when the new bucket has it. -/
theorem Unique.assign (h : Unique words) {r : Bytes} {b : List UserWord}
    (hb : (b.map UserWord.word).Nodup) : Unique (words.assign r b) := by
  intro ruby
  rw [bucket_assign]
  by_cases hr : ruby = r
  · rw [if_pos hr]
    exact hb
  · rw [if_neg hr]
    exact h ruby

/-- No position means no entry. -/
theorem word_notMem_of_position {w : UserWord} (h : position words w.word w.ruby = none) :
    w.word ∉ (bucket words w.ruby).map UserWord.word := by
  unfold position at h
  rw [List.findIdx?_eq_none_iff] at h
  intro hmem
  obtain ⟨x, hx, hword⟩ := List.mem_map.mp hmem
  have hne := h x hx
  simp [hword] at hne

/-- A word that is not there may be put at the end. -/
theorem Unique.pushBack (h : Unique words) {w : UserWord}
    (hnew : w.word ∉ (bucket words w.ruby).map UserWord.word) : Unique (pushBack words w) := by
  refine h.assign ?_
  rw [List.map_append, List.nodup_append]
  refine ⟨h w.ruby, by simp, fun a ha b hb => ?_⟩
  rintro rfl
  rw [List.map_cons, List.map_nil, List.mem_singleton] at hb
  exact hnew (hb ▸ ha)

/-- The entry at the position of a word. -/
theorem word_at_position {w : UserWord} {i : ℕ} (h : position words w.word w.ruby = some i) :
    ∃ hi : i < (bucket words w.ruby).length, ((bucket words w.ruby).get ⟨i, hi⟩).word = w.word := by
  unfold position at h
  obtain ⟨hi, hp, -⟩ := List.findIdx?_eq_some_iff_getElem.mp h
  exact ⟨hi, by simpa using hp⟩

/-- Replacing an entry of the same word leaves the words. -/
theorem map_word_set {b : List UserWord} {i : ℕ} {w : UserWord} (hi : i < b.length)
    (hword : (b.get ⟨i, hi⟩).word = w.word) :
    (b.set i w).map UserWord.word = b.map UserWord.word := by
  refine List.ext_getElem (by simp) fun j hj _ => ?_
  rw [List.getElem_map, List.getElem_set, List.getElem_map]
  by_cases hij : i = j
  · subst hij
    rw [if_pos rfl]
    exact hword.symm
  · rw [if_neg hij]

/-- A word may be replaced. -/
theorem Unique.replaceAt (h : Unique words) {w : UserWord} {i : ℕ}
    (hi : position words w.word w.ruby = some i) : Unique (replaceAt words i w) := by
  obtain ⟨hlt, hword⟩ := word_at_position hi
  refine h.assign ?_
  rw [map_word_set hlt hword]
  exact h w.ruby

end Buckets

/-! ## The mutators search first -/

/-- `Add` keeps a word unique. -/
theorem unique_add {d : UserDictionary} (h : Unique d.byRuby) (w : UserWord) :
    Unique (d.add w).2.byRuby := by
  unfold add
  split
  · rename_i i hi
    exact h.replaceAt hi
  · rename_i hnone
    exact h.pushBack (word_notMem_of_position hnone)

/-- A round of `Merge` keeps a word unique. -/
theorem unique_mergeWord {policy : ImportConflictPolicy}
    {s : OrderedMap Bytes (List UserWord) × ImportCounts} (h : Unique s.1) (w : UserWord) :
    Unique (mergeWord policy s w).1 := by
  unfold mergeWord
  split
  · rename_i hnone
    exact h.pushBack (word_notMem_of_position hnone)
  · rename_i i hi
    dsimp only
    split
    · exact h.replaceAt hi
    · exact h

/-- The buckets that `Remove` leaves. -/
theorem bucket_remove {d : UserDictionary} {word ruby : Bytes} {i : ℕ}
    (hi : position d.byRuby word ruby = some i) : (d.remove word ruby).1 = true
      ∧ ∀ r, bucket (d.remove word ruby).2.byRuby r
        = if r = ruby then (bucket d.byRuby ruby).eraseIdx i else bucket d.byRuby r := by
  unfold position bucket at hi
  cases hfind : d.byRuby.find? ruby with
  | none =>
    rw [hfind] at hi
    cases hi
  | some b =>
    rw [hfind, Option.getD_some] at hi
    have hremove : d.remove word ruby = (true, ⟨if (b.eraseIdx i).isEmpty then d.byRuby.erase ruby
        else d.byRuby.assign ruby (b.eraseIdx i), d.revision + 1⟩) := by
      unfold remove
      simp only [hfind, hi]
    rw [hremove]
    refine ⟨rfl, fun r => ?_⟩
    have hb : bucket d.byRuby ruby = b := by
      unfold bucket
      rw [hfind, Option.getD_some]
    rw [hb]
    by_cases hempty : (b.eraseIdx i).isEmpty = true
    · simp only [hempty, if_true]
      unfold bucket
      rw [OrderedMap.find?_erase]
      by_cases hr : r = ruby
      · rw [if_pos hr, if_pos hr, List.isEmpty_iff.mp hempty, Option.getD_none]
      · rw [if_neg hr, if_neg hr]
    · simp only [hempty, if_false, Bool.false_eq_true]
      exact bucket_assign _ _ _ _

/-- `Remove` of a word that is not there does nothing. -/
theorem remove_of_position_none {d : UserDictionary} {word ruby : Bytes}
    (h : position d.byRuby word ruby = none) : d.remove word ruby = (false, d) := by
  unfold position bucket at h
  unfold remove
  cases hfind : d.byRuby.find? ruby with
  | none => rfl
  | some b =>
    rw [hfind, Option.getD_some] at h
    simp only [h]

/-- `Remove` keeps a word unique. -/
theorem unique_remove {d : UserDictionary} (h : Unique d.byRuby) (word ruby : Bytes) :
    Unique (d.remove word ruby).2.byRuby := by
  cases hi : position d.byRuby word ruby with
  | none =>
    rw [remove_of_position_none hi]
    exact h
  | some i =>
    intro r
    rw [(bucket_remove hi).2]
    by_cases hr : r = ruby
    · rw [if_pos hr]
      exact (h ruby).sublist ((List.eraseIdx_sublist _ i).map _)
    · rw [if_neg hr]
      exact h r

/-- Nothing is unique. -/
theorem unique_empty : Unique OrderedMap.empty := fun _ => List.nodup_nil

/-! ## The loaders do not search -/

/-- The bucket of a reading, after words were put there one by one. -/
theorem bucket_foldl_pushBack (ws : List UserWord) (words : OrderedMap Bytes (List UserWord))
    (ruby : Bytes) : bucket (ws.foldl pushBack words) ruby
      = bucket words ruby ++ ws.filter (fun w => w.ruby = ruby) := by
  induction ws generalizing words with
  | nil => simp
  | cons w ws ih =>
    have hpush : bucket (pushBack words w) ruby
        = bucket words ruby ++ if w.ruby = ruby then [w] else [] := by
      unfold pushBack
      rw [bucket_assign]
      by_cases hr : ruby = w.ruby
      · rw [if_pos hr, if_pos hr.symm, hr]
      · rw [if_neg hr, if_neg (Ne.symm hr), List.append_nil]
    rw [List.foldl_cons, ih, hpush, List.append_assoc, List.filter_cons]
    by_cases hr : w.ruby = ruby
    · simp [hr]
    · simp [hr]

/-- Distinct pairs, fibre by fibre. -/
theorem nodup_map_entryKey_iff (ws : List UserWord) : (ws.map entryKey).Nodup
    ↔ ∀ ruby, ((ws.filter (fun w => w.ruby = ruby)).map UserWord.word).Nodup := by
  constructor
  · intro h ruby
    have hsub := h.sublist ((List.filter_sublist (p := fun w : UserWord => w.ruby = ruby)).map
      entryKey)
    rw [List.nodup_iff_pairwise_ne, List.pairwise_map] at hsub ⊢
    refine hsub.imp_of_mem fun {a b} ha hb hne hword => hne ?_
    have hra : a.ruby = ruby := by simpa using (List.mem_filter.mp ha).2
    have hrb : b.ruby = ruby := by simpa using (List.mem_filter.mp hb).2
    exact Prod.ext (hra.trans hrb.symm) hword
  · intro h
    induction ws with
    | nil => exact List.nodup_nil
    | cons w ws ih =>
      rw [List.map_cons, List.nodup_cons]
      constructor
      · intro hmem
        obtain ⟨x, hx, hkey⟩ := List.mem_map.mp hmem
        have hw := h w.ruby
        rw [List.filter_cons_of_pos (by simp), List.map_cons, List.nodup_cons] at hw
        refine hw.1 (List.mem_map.mpr ⟨x, List.mem_filter.mpr ⟨hx, ?_⟩, congrArg Prod.snd hkey⟩)
        exact decide_eq_true (congrArg Prod.fst hkey)
      · refine ih fun ruby => (h ruby).sublist (List.Sublist.map _ ?_)
        exact (List.sublist_cons_self w ws).filter _

/-- **What a loader reads is unique if and only if its entries are distinct.** -/
theorem unique_loadEntries_iff (entries : List Value) : Unique (loadEntries entries)
    ↔ ((entries.filterMap wordFromJson).map entryKey).Nodup := by
  have hempty : ∀ ruby, bucket (OrderedMap.empty : OrderedMap Bytes (List UserWord)) ruby = [] :=
    fun _ => rfl
  unfold Unique loadEntries
  simp only [bucket_foldl_pushBack, hempty, List.nil_append]
  rw [nodup_map_entryKey_iff]

/-- `LoadText` loads the entries of its text. -/
theorem loadText_eq (d : UserDictionary) (text : Bytes) : (d.loadText text).2
    = (entriesOf text).elim d (fun entries => ⟨loadEntries entries, d.revision + 1⟩) := by
  unfold loadText entriesOf
  cases (parse text).bind (fun v => if v.isObject then v.getArray (utf8 "entries") else none) <;> rfl

/-- `Load` loads the entries of its text, or nothing. -/
theorem byRuby_load (d : UserDictionary) (file : FileContents) : (d.load file).2.byRuby
    = if file.source = .missing ∨ file.source = .error ∨ file.text = [] then OrderedMap.empty
      else (entriesOf file.text).elim OrderedMap.empty loadEntries := by
  unfold load
  cases hsource : file.source with
  | missing => rfl
  | error => rfl
  | encrypted =>
    by_cases htext : file.text = []
    · simp [htext, clear]
    · cases entriesOf file.text <;> simp [htext, clear]
  | plaintext =>
    by_cases htext : file.text = []
    · simp [htext, clear]
    · cases entriesOf file.text <;> simp [htext, clear]

/-! ## All operations -/

/-- **An operation that loads no word twice keeps the words unique.** -/
theorem unique_edit {d : UserDictionary} (h : Unique d.byRuby) {e : Edit} (he : e.Distinct) :
    Unique (d.edit e).byRuby := by
  cases e with
  | load file =>
    show Unique (d.load file).2.byRuby
    rw [byRuby_load]
    by_cases hnone : file.source = .missing ∨ file.source = .error ∨ file.text = []
    · rw [if_pos hnone]
      exact unique_empty
    · rw [if_neg hnone]
      rw [not_or, not_or] at hnone
      have hdistinct := he hnone.1 hnone.2.1 hnone.2.2
      cases hentries : entriesOf file.text with
      | none => exact unique_empty
      | some entries => exact (unique_loadEntries_iff entries).mpr (hdistinct entries hentries)
  | loadText text =>
    show Unique (d.loadText text).2.byRuby
    rw [loadText_eq]
    cases hentries : entriesOf text with
    | none => exact h
    | some entries => exact (unique_loadEntries_iff entries).mpr (he entries hentries)
  | add w => exact unique_add h w
  | merge other policy =>
    exact foldl_inv (P := fun s => Unique s.1) (f := mergeWord policy) (Q := fun _ => True)
      (s := (d.byRuby, {})) (fun _ w h _ => unique_mergeWord h w) (fun _ _ => trivial) h
  | replaceAll entries =>
    exact foldl_inv (P := fun d => Unique d.byRuby) (f := fun d w => (d.add w).2)
      (Q := fun _ => True) (s := d.clear) (fun _ w h _ => unique_add h w) (fun _ _ => trivial)
      unique_empty
  | remove word ruby => exact unique_remove h word ruby
  | clear => exact unique_empty

/-- **An operation that loads a word twice leaves it twice.** -/
theorem distinct_of_unique_edit {d : UserDictionary} {e : Edit} (h : Unique (d.edit e).byRuby) :
    e.Distinct := by
  cases e with
  | load file =>
    intro hmissing herror htext entries hentries
    have h : Unique (d.load file).2.byRuby := h
    rw [byRuby_load, if_neg (by rw [not_or, not_or]; exact ⟨hmissing, herror, htext⟩),
      hentries] at h
    exact (unique_loadEntries_iff entries).mp h
  | loadText text =>
    intro entries hentries
    have h : Unique (d.loadText text).2.byRuby := h
    rw [loadText_eq, hentries] at h
    exact (unique_loadEntries_iff entries).mp h
  | _ => trivial

/-- Among unique words, an entry is the only one of its word. -/
theorem filter_word_eq_singleton {b : List UserWord} (h : (b.map UserWord.word).Nodup)
    {w : UserWord} (hw : w ∈ b) : b.filter (fun x => x.word = w.word) = [w] := by
  induction b with
  | nil => cases hw
  | cons x b ih =>
    rw [List.map_cons, List.nodup_cons] at h
    have hnone : ∀ y : UserWord, y.word ∉ b.map UserWord.word →
        b.filter (fun x => x.word = y.word) = [] := by
      intro y hy
      rw [List.filter_eq_nil_iff]
      intro z hz hword
      exact hy (List.mem_map.mpr ⟨z, hz, by simpa using hword⟩)
    rcases List.mem_cons.mp hw with rfl | hw
    · rw [List.filter_cons_of_pos (by simp), hnone w h.1]
    · have hne : ¬ x.word = w.word := fun hword => h.1 (hword ▸ List.mem_map_of_mem hw)
      rw [List.filter_cons_of_neg (by simpa using hne)]
      exact ih h.2 hw

/-- **A dictionary with unique words does what its operations promise.** -/
theorem lawful_of_unique {d : UserDictionary} (h : Unique d.byRuby) : d.Lawful where
  unique := h
  remove := by
    intro word ruby htrue x hx hword
    cases hi : position d.byRuby word ruby with
    | none =>
      rw [remove_of_position_none hi] at htrue
      cases htrue
    | some i =>
      -- what is left of the bucket is unique together with the entry taken out
      have hx : x ∈ bucket (d.remove word ruby).2.byRuby ruby := hx
      rw [(bucket_remove hi).2, if_pos rfl] at hx
      unfold position at hi
      obtain ⟨hlt, hp, -⟩ := List.findIdx?_eq_some_iff_getElem.mp hi
      have hpi : (bucket d.byRuby ruby)[i].word = word := by simpa using hp
      obtain ⟨j, hj, hne, rfl⟩ := List.mem_eraseIdx_iff_getElem.mp hx
      have hnodup := h ruby
      have hinj := (List.nodup_iff_injective_get.mp hnodup)
      have hij : (⟨j, by simpa using hj⟩ : Fin ((bucket d.byRuby ruby).map UserWord.word).length)
          = ⟨i, by simpa using hlt⟩ := by
        apply hinj
        simp [hword, hpi]
      exact hne (congrArg Fin.val hij)
  add := by
    intro w
    have hunique := unique_add h w
    have hmem : w ∈ (d.add w).2.lookup w.ruby := by
      unfold add lookup
      split
      · rename_i i hi
        obtain ⟨hlt, -⟩ := word_at_position hi
        show w ∈ bucket (replaceAt d.byRuby i w) w.ruby
        unfold replaceAt
        rw [bucket_assign, if_pos rfl]
        exact List.mem_set hlt w
      · show w ∈ bucket (pushBack d.byRuby w) w.ruby
        unfold pushBack
        rw [bucket_assign, if_pos rfl]
        simp
    exact filter_word_eq_singleton (hunique w.ruby) hmem

/-- One operation more. -/
theorem edits_append (d : UserDictionary) (es : List Edit) (e : Edit) :
    d.edits (es ++ [e]) = (d.edits es).edit e := by
  unfold edits
  rw [List.foldl_append, List.foldl_cons, List.foldl_nil]

/-- **All states of a sequence of operations are lawful if and only if no
operation loads a word twice.** -/
theorem lawful_iff_distinct (es : List Edit) :
    (∀ before after, es = before ++ after → (empty.edits before).Lawful) ↔ ∀ e ∈ es, e.Distinct := by
  constructor
  · intro h e he
    obtain ⟨before, after, rfl⟩ := List.append_of_mem he
    have hlawful := h (before ++ [e]) after (by simp)
    rw [edits_append] at hlawful
    exact distinct_of_unique_edit hlawful.unique
  · rintro h before after rfl
    refine lawful_of_unique ?_
    have hbefore : ∀ e ∈ before, e.Distinct := fun e he => h e (List.mem_append_left _ he)
    clear h
    induction before using List.reverseRecOn with
    | nil => exact unique_empty
    | append_singleton before e ih =>
      rw [edits_append]
      exact unique_edit (ih (fun e he => hbefore e (by simp [he]))) (hbefore e (by simp))

/-- A text that names one word twice. -/
def doubledText : Bytes :=
  utf8 ("\x7b\"entries\":[\x7b\"ruby\":\"a\",\"word\":\"b\"\x7d,"
    ++ "\x7b\"ruby\":\"a\",\"word\":\"b\",\"cid\":1\x7d]\x7d")

/-- **After `doubledText` is loaded, a word that was removed is still found.** -/
theorem not_lawful_doubledText :
    ((empty.edits [.loadText doubledText]).remove (utf8 "b") (utf8 "a")).1 = true
      ∧ ¬ (∀ es before after, es = before ++ after → (empty.edits before).Lawful) := by
  have htrue : ((empty.edits [.loadText doubledText]).remove (utf8 "b") (utf8 "a")).1 = true := by
    decide +kernel
  refine ⟨htrue, fun h => ?_⟩
  have hlawful := h [.loadText doubledText] [.loadText doubledText] [] rfl
  have hleft : (((empty.edits [.loadText doubledText]).remove (utf8 "b") (utf8 "a")).2.lookup
      (utf8 "a")).any (fun x => x.word = utf8 "b") = true := by
    decide +kernel
  obtain ⟨x, hx, hword⟩ := List.any_eq_true.mp hleft
  exact hlawful.remove (utf8 "b") (utf8 "a") htrue x hx (by simpa using hword)

end UserDictionary

end AzooKey.Learning

import AzooKey.Core.DoubleArrayTriePredictive
import AzooKey.Lib.OrderedMap

/-!
# The layers of the dictionary

`learning/src/DictionaryStore.cpp` keeps eight layers: five that are files, each
with a double array behind it, and three that are in memory, each an ordered map
from a reading to its entries. `QueryLayer` asks one of them, in three modes.

The two kinds of layers share no code below `QueryLayer`. Where a layer in memory
has the keys of a file with the entries of the file, both answer the same entries
in the same order: the keys that are asked for, shorter ones first and those of
one length in their order, cut at the same place (`queryLayer_agrees`). The file
is asked for one key more where the key itself is to be left out. It does not
complete the empty key, and finds no reading in front of a NUL, where a layer in
memory does; `Lookup` asks for neither.
-/

namespace AzooKey.Learning

open Core.Dictionary Faulting

/-! ## Queries -/

/-- `LookupMode`. -/
inductive LookupMode
  | exact | commonPrefix | predictivePrefix
deriving DecidableEq

/-- `LookupContext`, as far as `QueryLayer` reads it. -/
structure LookupContext where
  mode : LookupMode
  maxResults : UInt64
  excludeExactKey : Bool
deriving DecidableEq

/-- `DictionaryEntry`, as far as `QueryLayer` fills it. -/
structure DictionaryEntry where
  surface : Bytes
  reading : Bytes
  normalizedReading : Bytes
  frequency : Double
  categoryMask : ℕ
  source : UInt8
  kind : MatchKind
deriving DecidableEq

/-- `Index`: the entries of a layer in memory, by their readings. -/
abbrev Index := OrderedMap Bytes (List DictionaryEntry)

/-- The largest `size_t`. -/
def maxSize : ℕ := 2 ^ 64 - 1

/-- How many keys the double array is asked for: one more where the key itself is
to be left out. -/
def fetchLimit (ctx : LookupContext) : ℕ :=
  if ctx.excludeExactKey = true ∧ ctx.maxResults.toNat ≠ 0 ∧ ctx.maxResults.toNat < maxSize then
    ctx.maxResults.toNat + 1
  else ctx.maxResults.toNat

/-- The matches of the double array. -/
def staticMatches (d : Impl) (key : Bytes) (ctx : LookupContext) : Query (List PrefixMatch) :=
  match ctx.mode with
  | .exact => d.exactMatch key >>= fun found => pure found.toList
  | .commonPrefix => d.commonPrefixSearch key ctx.maxResults.toNat
  | .predictivePrefix => d.predictiveSearch key (fetchLimit ctx)

/-- The matches without the key itself, where it is to be left out. -/
def withoutExact (key : Bytes) (ctx : LookupContext) (found : List PrefixMatch) :
    List PrefixMatch :=
  if ctx.mode = .predictivePrefix ∧ ctx.excludeExactKey = true then
    firstOf ctx.maxResults.toNat (found.filter (fun m => m.keyLength ≠ key.length))
  else found

/-- What an entry of a file becomes. -/
def DictionaryEntry.ofStatic (entry : StaticDictionaryEntry) : DictionaryEntry where
  surface := entry.surface
  reading := entry.reading
  normalizedReading := normalizeReading entry.reading
  frequency := entry.frequency
  categoryMask := entry.categoryMask
  source := entry.source
  kind := entry.kind

/-- The loop over the matches: nothing at all, if the entries of one cannot be
read. -/
def readMatches (d : Impl) (out : List DictionaryEntry) : List PrefixMatch →
    Query (List DictionaryEntry)
  | [] => pure out
  | m :: found =>
    d.readEntries m >>= fun r =>
      if r.1 then readMatches d (out ++ r.2.map .ofStatic) found else pure []

/-- **`QueryLayer`, in a file.** -/
def queryStatic (d : Impl) (key : Bytes) (ctx : LookupContext) : Query (List DictionaryEntry) := do
  let available ← isAvailable
  if !available then pure []
  else
    let found ← staticMatches d key ctx
    readMatches d [] (withoutExact key ctx found)

/-- The readings that begin with a key, from `lower_bound` on. -/
def prefixRange (index : Index) (key : Bytes) : List (Bytes × List DictionaryEntry) :=
  (index.entries.dropWhile (fun e => e.1 < key)).takeWhile (fun e => key.isPrefixOf e.1)

/-- The beginnings of a key that end between two characters, with their entries. -/
def prefixesOf (index : Index) (key : Bytes) : List (Bytes × List DictionaryEntry) :=
  (List.range' 1 key.length).filterMap (fun length =>
    if length ≠ key.length ∧ (key.drop length).head?.any (fun c => c &&& 0xc0 = 0x80) then none
    else (index.find? (key.take length)).map (fun entries => (key.take length, entries)))

/-- The readings of a layer in memory that are asked for, not yet in order. -/
def mutableMatches (index : Index) (key : Bytes) (ctx : LookupContext) :
    List (Bytes × List DictionaryEntry) :=
  match ctx.mode with
  | .exact => ((index.find? key).map (fun entries => (key, entries))).toList
  | .commonPrefix => prefixesOf index key
  | .predictivePrefix =>
    (prefixRange index key).filter (fun e => !ctx.excludeExactKey || e.1 != key)

/-- **`QueryLayer`, in memory.** -/
def queryMutable (index : Index) (key : Bytes) (ctx : LookupContext) : List DictionaryEntry :=
  (firstOf ctx.maxResults.toNat
    ((mutableMatches index key ctx).insertionSort (fun a b => Shorter a.1 b.1))).flatMap Prod.snd

/-- A layer. -/
inductive Layer
  | static (trie : Option Impl)
  | mutable (index : Index)

/-- **`QueryLayer`.** -/
def queryLayer (layer : Layer) (enabled includeDisabledStatic : Bool) (key : Bytes)
    (ctx : LookupContext) : Query (List DictionaryEntry) :=
  match layer with
  | .static trie =>
    if !enabled && !includeDisabledStatic then pure []
    else trie.elim (pure []) (fun d => queryStatic d key ctx)
  | .mutable index => if !enabled then pure [] else pure (queryMutable index key ctx)

/-! ## Lists -/

section Lists

variable {α β : Type}

/-- The first of a list, mapped. -/
theorem firstOf_map (n : ℕ) (f : α → β) (l : List α) :
    firstOf n (l.map f) = (firstOf n l).map f := by
  unfold firstOf
  split
  · rfl
  · rw [List.map_take]

/-- **One more than the maximum is enough** where one at most is left out. -/
theorem take_filter_take (p : α → Bool) (n : ℕ) {l : List α}
    (h : (l.filter (fun a => !p a)).length ≤ 1) :
    ((l.take (n + 1)).filter p).take n = (l.filter p).take n := by
  induction l generalizing n with
  | nil => rfl
  | cons a l ih =>
    cases ha : p a with
    | true =>
      rw [List.filter_cons_of_neg (by simp [ha])] at h
      cases n with
      | zero => rw [List.take_zero, List.take_zero]
      | succ n =>
        rw [List.take_succ_cons, List.filter_cons_of_pos ha, List.filter_cons_of_pos ha,
          List.take_succ_cons, List.take_succ_cons, ih n h]
    | false =>
      -- nothing else is left out
      rw [List.filter_cons_of_pos (by simp [ha]), List.length_cons] at h
      have hnone : l.filter (fun a => !p a) = [] := List.length_eq_zero_iff.mp (by omega)
      have hall : ∀ b ∈ l, p b = true := by
        intro b hb
        have := List.filter_eq_nil_iff.mp hnone b hb
        simpa using this
      have hle : ∀ b ∈ l.take n, p b = true := fun b hb => hall b (List.mem_of_mem_take hb)
      rw [List.take_succ_cons, List.filter_cons_of_neg (by simp [ha]),
        List.filter_cons_of_neg (by simp [ha]), List.filter_eq_self.mpr hle,
        List.filter_eq_self.mpr hall, List.take_take, Nat.min_self]

/-- A sort of pairs by their first parts. -/
theorem insertionSort_pairs (f : Bytes → β) (l : List Bytes) :
    (l.map (fun k => (k, f k))).insertionSort (fun a b => Shorter a.1 b.1)
      = (l.insertionSort Shorter).map (fun k => (k, f k)) :=
  (List.map_insertionSort Shorter (fun a b : Bytes × β => Shorter a.1 b.1) (fun k => (k, f k)) l
    (fun _ _ _ _ => Iff.rfl)).symm

/-- A sort of what is left. -/
theorem insertionSort_filter (p : Bytes → Bool) (l : List Bytes) :
    (l.filter p).insertionSort Shorter = (l.insertionSort Shorter).filter p := by
  refine List.Perm.eq_of_pairwise' (r := Shorter) (List.pairwise_insertionSort _ _)
    ((List.pairwise_insertionSort _ _).filter _) ?_
  exact (List.perm_insertionSort _ _).trans ((List.perm_insertionSort _ _).filter p).symm

/-- **The readings that begin with a key lie together**, from the first one that
is not before it. -/
theorem prefixRange_eq {keys : List Bytes} (key : Bytes) (h : keys.Pairwise (· < ·)) :
    (keys.dropWhile (fun k => k < key)).takeWhile (fun k => key.isPrefixOf k)
      = keys.filter (fun k => key.isPrefixOf k) := by
  induction keys with
  | nil => rfl
  | cons k keys ih =>
    have hrest := ih (List.pairwise_cons.mp h).2
    by_cases hlt : k < key
    · have hno : ¬ key.isPrefixOf k = true := by
        rw [List.isPrefixOf_iff_prefix]
        intro hprefix
        rcases eq_or_ne key k with rfl | hne
        · exact lt_irrefl _ hlt
        · exact lt_asymm hlt (List.lt_of_prefix_of_ne hprefix hne)
      rw [List.dropWhile_cons_of_pos (by simpa using hlt), List.filter_cons_of_neg hno]
      exact hrest
    · rw [List.dropWhile_cons_of_neg (by simpa using hlt)]
      -- from here on, nothing that does not begin with the key lies before what does
      have hle : key ≤ k := not_lt.mp hlt
      clear hrest ih
      induction keys generalizing k with
      | nil =>
        by_cases hprefix : key.isPrefixOf k = true
        · rw [List.takeWhile_cons_of_pos hprefix, List.filter_cons_of_pos hprefix]
          rfl
        · rw [List.takeWhile_cons_of_neg hprefix, List.filter_cons_of_neg hprefix]
          rfl
      | cons k' keys ih =>
        have hkk' : k < k' := (List.pairwise_cons.mp h).1 k' List.mem_cons_self
        have hpair := (List.pairwise_cons.mp h).2
        by_cases hprefix : key.isPrefixOf k = true
        · rw [List.takeWhile_cons_of_pos hprefix, List.filter_cons_of_pos hprefix,
            ih k' hpair (not_lt.mpr (hle.trans hkk'.le)) (hle.trans hkk'.le)]
        · rw [List.takeWhile_cons_of_neg hprefix, List.filter_cons_of_neg hprefix]
          symm
          rw [List.filter_eq_nil_iff]
          intro l hl hpl
          have hkl : k ≤ l := ((List.pairwise_cons.mp h).1 l hl).le
          have hne : key ≠ k := fun heq =>
            hprefix (List.isPrefixOf_iff_prefix.mpr (heq ▸ List.prefix_rfl))
          exact hprefix (List.isPrefixOf_iff_prefix.mpr
            (List.prefix_of_lt_of_prefix (lt_of_le_of_ne hle hne) hkl
              (List.isPrefixOf_iff_prefix.mp hpl)))

end Lists

/-! ## A file and a map with the same keys -/

/-- What an entry is compared by: surface, reading, category and kind. -/
def facets (entry : DictionaryEntry) : Bytes × Bytes × ℕ × MatchKind :=
  (entry.surface, entry.reading, entry.categoryMask, entry.kind)

/-- **A file and a map hold the same**: the same keys, and for each of them the
same entries. -/
structure Holds (d : Impl) (s : Status) (index : Index) : Prop where
  keys : ∀ q, (∃ m, d.exactMatch q s = some (some m, s)) ↔ (index.find? q).isSome = true
  entries : ∀ q m, d.exactMatch q s = some (some m, s) → ∃ out,
    d.readEntries m s = some ((true, out), s)
      ∧ (out.map DictionaryEntry.ofStatic).map facets = ((index.find? q).getD []).map facets

/-- **The keys that a query is about**, in the order of the answer. -/
def queried (keys : List Bytes) (key : Bytes) (ctx : LookupContext) : List Bytes :=
  match ctx.mode with
  | .exact => [key].filter (fun k => k ∈ keys)
  | .commonPrefix => firstOf ctx.maxResults.toNat (key.inits.filter (fun k => k ∈ keys))
  | .predictivePrefix => firstOf ctx.maxResults.toNat
      ((completions keys key).filter (fun k => !ctx.excludeExactKey || k != key))

/-- What the double array knows of a key that it has. -/
def matchFor (d : Impl) (keys : List Bytes) (q : Bytes) : PrefixMatch :=
  let id := (keys.idxOf? q).getD 0
  ⟨q.length, id, d.image.value (d.keySection.offset + id * 8) 4,
    d.image.value (d.keySection.offset + id * 8 + 4) 4⟩

section Static

variable {d : Impl} {keys : List Bytes}

/-- The keys are found, and nothing else. -/
theorem find_eq_ite (d : Impl) (keys : List Bytes) (q : Bytes) :
    d.find keys q = if q ∈ keys then some (matchFor d keys q) else none := by
  unfold Impl.find matchFor
  split
  · rename_i hmem
    obtain ⟨id, hid⟩ := Option.isSome_iff_exists.mp (List.isSome_idxOf?.mpr hmem)
    rw [hid]
    rfl
  · rename_i hno
    rw [List.idxOf?_eq_none_iff.mpr hno]
    rfl

/-- What is found of a list of texts. -/
theorem filterMap_find (l : List Bytes) :
    l.filterMap (d.find keys) = (l.filter (fun k => k ∈ keys)).map (matchFor d keys) := by
  refine filterMap_eq_map_filter (fun q _ => ?_)
  rw [find_eq_ite]
  simp only [decide_eq_true_eq]

/-- The completions are keys. -/
theorem mem_completions {p k : Bytes} : k ∈ completions keys p ↔ k ∈ keys ∧ p <+: k := by
  unfold completions
  rw [List.mem_insertionSort, List.mem_filter, List.isPrefixOf_iff_prefix]

/-- The completions come once. -/
theorem nodup_completions (h : keys.Pairwise (· < ·)) (p : Bytes) : (completions keys p).Nodup := by
  unfold completions
  rw [(List.perm_insertionSort _ _).nodup_iff]
  exact (h.imp (fun hlt => ne_of_lt hlt)).filter _

/-- There are no more keys than cells. -/
theorem keys_lt_maxSize (h : d.Verified keys) : keys.length < maxSize := by
  have hnode : ∀ id : Fin keys.length, ∃ i : Fin d.nodeCount, ∃ m, d.keyOf i = some m
      ∧ m.keyId = id := by
    intro id
    obtain ⟨i, m, hwalk, hm, hid⟩ := h.node_of_key (List.getElem?_eq_getElem id.isLt)
    exact ⟨⟨i, walk_lt (root_lt h.fits) hwalk⟩, m, hm, hid⟩
  choose f hf using hnode
  have hinj : Function.Injective f := by
    intro a b hab
    obtain ⟨m, hm, ha⟩ := hf a
    obtain ⟨m', hm', hb⟩ := hf b
    rw [hab, hm'] at hm
    cases hm
    exact Fin.ext (ha.symm.trans hb)
  have hle := Fintype.card_le_of_injective f hinj
  rw [Fintype.card_fin, Fintype.card_fin] at hle
  exact (hle.trans h.fits.nodeCount_le).trans_lt (by decide)

/-- **One key more is enough**: the matches of a search with the key itself left
out. -/
theorem firstOf_without (h : d.Verified keys) (key : Bytes) (max : UInt64) :
    firstOf max.toNat ((firstOf
        (if max.toNat ≠ 0 ∧ max.toNat < maxSize then max.toNat + 1 else max.toNat)
        (completions keys key)).filter (fun k => k != key))
      = firstOf max.toNat ((completions keys key).filter (fun k => k != key)) := by
  have hone : ((completions keys key).filter (fun k => !(k != key))).length ≤ 1 := by
    have hnodup := (nodup_completions h.sorted key).filter (fun k => !(k != key))
    have hsub : (completions keys key).filter (fun k => !(k != key)) ⊆ [key] := by
      intro k hk
      rw [List.mem_filter] at hk
      simpa using hk.2
    exact (List.subperm_of_subset hnodup hsub).length_le
  by_cases hzero : max.toNat = 0
  · rw [if_neg (fun hmax => hmax.1 hzero), hzero]
    rfl
  have hfirst : ∀ (l : List Bytes), firstOf max.toNat l = l.take max.toNat :=
    fun l => if_neg hzero
  by_cases hlt : max.toNat < maxSize
  · rw [if_pos ⟨hzero, hlt⟩, hfirst, hfirst]
    exact take_filter_take _ _ hone
  · -- no list of keys is as long as the largest number
    have hshort : (completions keys key).length ≤ max.toNat := by
      have hle : (completions keys key).length ≤ keys.length := by
        unfold completions
        rw [List.length_insertionSort]
        exact List.length_filter_le _ _
      exact hle.trans ((keys_lt_maxSize h).le.trans (not_lt.mp hlt))
    rw [if_neg (fun hmax => hlt hmax.2), hfirst (completions keys key),
      List.take_of_length_le hshort]

/-- A text with a NUL is not completed. -/
theorem predictiveSearch_nul {key : Bytes} (hnul : 0 ∈ key) (maximum : ℕ) (s : Status) :
    d.predictiveSearch key maximum s = some ([], s) := by
  have hinvalid : isValidUtf8 key = false :=
    Bool.eq_false_iff.mpr (fun hvalid => (isValidUtf8_iff.mp hvalid).2 hnul)
  unfold Impl.predictiveSearch Impl.predictiveVisits
  rw [bind_apply, bind_of_eq_some (isAvailable_apply s), hinvalid, if_pos (by simp)]
  rfl

/-- No key begins with a text that has a NUL. -/
theorem queried_nul (h : d.Verified keys) {key : Bytes} (hnul : 0 ∈ key) (max : UInt64)
    (exclude : Bool) : queried keys key ⟨.predictivePrefix, max, exclude⟩ = [] := by
  have hnone : completions keys key = [] := by
    refine List.eq_nil_iff_forall_not_mem.mpr (fun k hk => ?_)
    obtain ⟨hmem, hbegins⟩ := mem_completions.mp hk
    exact (isValidUtf8_iff.mp (h.valid k hmem)).2 (hbegins.subset hnul)
  show firstOf max.toNat ((completions keys key).filter _) = []
  rw [hnone, List.filter_nil]
  unfold firstOf
  rw [List.take_nil, ite_self]

/-- Of no match, none is left out. -/
theorem withoutExact_nil (key : Bytes) (ctx : LookupContext) : withoutExact key ctx [] = [] := by
  unfold withoutExact firstOf
  rw [List.filter_nil, List.take_nil, ite_self, ite_self]

/-- **The matches of the double array** are those of the keys that the query is
about. -/
theorem staticMatches_apply (h : d.Verified keys) {s : Status} (hs : s.available = true)
    {key : Bytes} {ctx : LookupContext} (hkey : ValidUtf8 key)
    (hnul : ctx.mode = .commonPrefix → 0 ∉ key)
    (hcomplete : ctx.mode = .predictivePrefix → key ≠ [] ∧ (0 ∉ key → d.Clean key)) :
    ∃ found, staticMatches d key ctx s = some (found, s)
      ∧ withoutExact key ctx found = (queried keys key ctx).map (matchFor d keys) := by
  obtain ⟨mode, max, exclude⟩ := ctx
  cases mode with
  | exact =>
    refine ⟨(d.find keys key).toList, ?_, ?_⟩
    · show (d.exactMatch key >>= fun found => pure found.toList) s = _
      rw [bind_of_eq_some (h.exactMatch_apply key hs)]
      rfl
    · show (d.find keys key).toList = ([key].filter (fun k => k ∈ keys)).map (matchFor d keys)
      rw [← filterMap_find, filterMap_singleton]
  | commonPrefix =>
    refine ⟨_, h.commonPrefixSearch_apply (isValidUtf8_iff.mpr ⟨hkey, hnul rfl⟩) max.toNat hs, ?_⟩
    show firstOf max.toNat (key.inits.filterMap (d.find keys)) = List.map _ (firstOf _ _)
    rw [filterMap_find, firstOf_map]
  | predictivePrefix =>
    obtain ⟨hne, hclean⟩ := hcomplete rfl
    by_cases hnul : 0 ∈ key
    · exact ⟨[], predictiveSearch_nul hnul _ s, by rw [queried_nul h hnul]; exact withoutExact_nil key _⟩
    have hsearch := h.predictiveSearch_clean hkey hne hs (hclean hnul)
      (fetchLimit ⟨.predictivePrefix, max, exclude⟩)
    have hfind : (completions keys key).filterMap (d.find keys)
        = (completions keys key).map (matchFor d keys) := by
      rw [filterMap_find]
      congr 1
      exact List.filter_eq_self.mpr (fun k hk => decide_eq_true (mem_completions.mp hk).1)
    rw [hfind, firstOf_map] at hsearch
    refine ⟨_, hsearch, ?_⟩
    cases exclude with
    | false =>
      have hall : (completions keys key).filter (fun k => !false || k != key)
          = completions keys key := List.filter_eq_self.mpr (fun k _ => rfl)
      show List.map _ (firstOf max.toNat _) = List.map _ (firstOf max.toNat _)
      rw [hall]
    | true =>
      -- of the completions, only the key itself has its length
      have hlength : ∀ k ∈ completions keys key,
          (decide ((matchFor d keys k).keyLength ≠ key.length)) = (k != key) := by
        intro k hk
        have hbegins := (mem_completions.mp hk).2
        rw [Bool.eq_iff_iff, decide_eq_true_eq, bne_iff_ne]
        refine not_congr ⟨fun hlen => ?_, fun heq => congrArg List.length heq⟩
        exact (hbegins.eq_of_length hlen.symm).symm
      show firstOf max.toNat ((List.map (matchFor d keys) (firstOf _ (completions keys key))).filter
          (fun m => m.keyLength ≠ key.length))
        = List.map (matchFor d keys) (firstOf max.toNat
            ((completions keys key).filter (fun k => !true || k != key)))
      rw [List.filter_map, firstOf_map]
      congr 1
      have hsame : ∀ n, (firstOf n (completions keys key)).filter
          ((fun m : PrefixMatch => decide (m.keyLength ≠ key.length)) ∘ matchFor d keys)
          = (firstOf n (completions keys key)).filter (fun k => k != key) := by
        intro n
        refine List.filter_congr (fun k hk => hlength k ?_)
        unfold firstOf at hk
        split at hk
        · exact hk
        · exact List.mem_of_mem_take hk
      rw [hsame]
      have hlimit : fetchLimit ⟨.predictivePrefix, max, true⟩
          = if max.toNat ≠ 0 ∧ max.toNat < maxSize then max.toNat + 1 else max.toNat :=
        if_congr (and_iff_right rfl) rfl rfl
      rw [hlimit]
      exact firstOf_without h key max

/-- The queried keys are keys. -/
theorem mem_of_queried {key k : Bytes} {ctx : LookupContext} (hk : k ∈ queried keys key ctx) :
    k ∈ keys := by
  have hfirst : ∀ {n : ℕ} {l : List Bytes}, k ∈ firstOf n l → k ∈ l := by
    intro n l hmem
    unfold firstOf at hmem
    split at hmem
    · exact hmem
    · exact List.mem_of_mem_take hmem
  unfold queried at hk
  split at hk
  · exact of_decide_eq_true (List.mem_filter.mp hk).2
  · exact of_decide_eq_true (List.mem_filter.mp (hfirst hk)).2
  · exact (mem_completions.mp (List.mem_filter.mp (hfirst hk)).1).1

/-- **The entries of the matches**, one key after another. -/
theorem readMatches_apply {s : Status} {index : Index} (h : d.Verified keys)
    (hs : s.available = true) (hholds : Holds d s index) {l : List Bytes} (hl : ∀ k ∈ l, k ∈ keys)
    (out : List DictionaryEntry) :
    ∃ out', readMatches d out (l.map (matchFor d keys)) s = some (out', s)
      ∧ out'.map facets
        = out.map facets ++ l.flatMap (fun k => ((index.find? k).getD []).map facets) := by
  induction l generalizing out with
  | nil => exact ⟨out, rfl, (List.append_nil _).symm⟩
  | cons k l ih =>
    have hmatch : d.exactMatch k s = some (some (matchFor d keys k), s) := by
      rw [h.exactMatch_apply k hs, find_eq_ite, if_pos (hl k List.mem_cons_self)]
    obtain ⟨entries, hread, hentries⟩ := hholds.entries k _ hmatch
    obtain ⟨out', hout', hfacets⟩ := ih (fun k hk => hl k (List.mem_cons_of_mem _ hk))
      (out ++ entries.map DictionaryEntry.ofStatic)
    refine ⟨out', ?_, ?_⟩
    · rw [List.map_cons, readMatches, bind_of_eq_some hread]
      exact hout'
    · rw [hfacets, List.map_append, hentries, List.flatMap_cons, List.append_assoc]

end Static

/-! ## The map in memory -/

section Mutable

variable {keys : List Bytes} {index : Index}

/-- The beginnings of a text by their lengths. -/
theorem inits_eq_map_take {α : Type} (l : List α) :
    l.inits = (List.range (l.length + 1)).map (fun n => l.take n) := by
  induction l with
  | nil => rfl
  | cons a l ih =>
    have hrange : List.range (l.length + 1 + 1) = 0 :: (List.range (l.length + 1)).map Nat.succ :=
      List.range_succ_eq_map
    rw [List.inits_cons, ih, List.length_cons, hrange, List.map_cons, List.map_map, List.map_map]
    rfl

/-- A map with given keys. -/
theorem entries_eq_map (h : index.entries.map Prod.fst = keys) :
    index.entries = keys.map (fun k => (k, (index.find? k).getD [])) := by
  rw [← h, List.map_map]
  symm
  refine (List.map_congr_left fun e he => ?_).trans (List.map_id _)
  have hfind : index.find? e.1 = some e.2 := index.find?_eq_some_iff.mpr he
  show (e.1, (index.find? e.1).getD []) = e
  rw [hfind]
  rfl

/-- The readings of a map in memory from a key on. -/
theorem prefixRange_index (h : index.entries.map Prod.fst = keys) (key : Bytes) :
    prefixRange index key
      = (keys.filter (fun k => key.isPrefixOf k)).map (fun k => (k, (index.find? k).getD [])) := by
  have hsorted : keys.Pairwise (· < ·) := by
    rw [← h, List.pairwise_map]
    exact index.sorted
  unfold prefixRange
  rw [entries_eq_map h, List.dropWhile_map, List.takeWhile_map, ← prefixRange_eq key hsorted]
  rfl

/-- The beginnings of a key that are readings: no reading ends inside of a
character. -/
theorem prefixesOf_index (h : index.entries.map Prod.fst = keys)
    (hkeys : ∀ k ∈ keys, isValidUtf8 k = true) (hnil : [] ∉ keys) {key : Bytes}
    (hkey : ValidUtf8 key) :
    prefixesOf index key
      = (key.inits.filter (fun k => k ∈ keys)).map (fun k => (k, (index.find? k).getD [])) := by
  have hmem : ∀ k, k ∈ keys ↔ (index.find? k).isSome = true := by
    intro k
    rw [← h, Option.isSome_iff_exists, List.mem_map]
    constructor
    · rintro ⟨e, he, rfl⟩
      exact ⟨e.2, index.find?_eq_some_iff.mpr he⟩
    · rintro ⟨v, hv⟩
      exact ⟨(k, v), index.find?_eq_some_iff.mp hv, rfl⟩
  have hround : ∀ length, (if length ≠ key.length ∧
        (key.drop length).head?.any (fun c => c &&& 0xc0 = 0x80) then none
      else (index.find? (key.take length)).map (fun entries => (key.take length, entries)))
      = if key.take length ∈ keys then
          some (key.take length, (index.find? (key.take length)).getD []) else none := by
    intro length
    by_cases hin : key.take length ∈ keys
    · have hboundary : (key.drop length).head?.any (fun c => c &&& 0xc0 = 0x80) = false := by
        have hrest : ValidUtf8 (key.drop length) := by
          refine (isValidUtf8_iff.mp (hkeys _ hin)).1.of_append_left ?_
          rw [List.take_append_drop]
          exact hkey
        cases hdrop : key.drop length with
        | nil => rfl
        | cons c rest =>
          rw [hdrop] at hrest
          rw [List.head?_cons, Option.any_some, decide_eq_false_iff_not, ← isTrailing_iff_and,
            hrest.not_isTrailing_head]
          exact Bool.false_ne_true
      obtain ⟨entries, hentries⟩ := Option.isSome_iff_exists.mp ((hmem _).mp hin)
      rw [if_pos hin, if_neg (fun hbad => by rw [hboundary] at hbad; exact Bool.false_ne_true hbad.2),
        hentries]
      rfl
    · have hnone : index.find? (key.take length) = none := by
        rw [← Option.not_isSome_iff_eq_none]
        exact fun hsome => hin ((hmem _).mpr hsome)
      rw [if_neg hin, hnone]
      split
      · rfl
      · rfl
  have hinits : key.inits.filter (fun k => k ∈ keys)
      = ((List.range' 1 key.length).map (fun n => key.take n)).filter (fun k => k ∈ keys) := by
    rw [inits_eq_map_take, List.range_eq_range', List.range'_succ, List.map_cons, List.take_zero,
      List.filter_cons_of_neg (by simpa using hnil)]
  unfold prefixesOf
  rw [hinits, List.filter_map, List.map_map]
  refine filterMap_eq_map_filter (fun length _ => ?_)
  rw [hround]
  simp only [Function.comp, decide_eq_true_eq]

/-- **The entries of a map in memory** are those of the keys that the query is
about. -/
theorem queryMutable_eq (h : index.entries.map Prod.fst = keys)
    (hkeys : ∀ k ∈ keys, isValidUtf8 k = true) (hnil : [] ∉ keys) {key : Bytes}
    (hkey : ValidUtf8 key) (ctx : LookupContext) :
    queryMutable index key ctx
      = (queried keys key ctx).flatMap (fun k => (index.find? k).getD []) := by
  -- what is asked for, as a list of keys, and its order
  have hresult : ∀ {l : List Bytes},
      mutableMatches index key ctx = l.map (fun k => (k, (index.find? k).getD [])) →
      firstOf ctx.maxResults.toNat (l.insertionSort Shorter) = queried keys key ctx →
      queryMutable index key ctx
        = (queried keys key ctx).flatMap (fun k => (index.find? k).getD []) := by
    intro l hl hqueried
    unfold queryMutable
    rw [hl, insertionSort_pairs, firstOf_map, hqueried, List.flatMap_map]
  obtain ⟨mode, max, exclude⟩ := ctx
  cases mode with
  | exact =>
    refine hresult (l := [key].filter (fun k => k ∈ keys)) ?_ ?_
    · have hfind : index.find? key = if key ∈ keys then some ((index.find? key).getD []) else none := by
        cases hfound : index.find? key with
        | none =>
          rw [if_neg]
          rw [← h, List.mem_map]
          rintro ⟨e, he, rfl⟩
          rw [index.find?_eq_some_iff.mpr he] at hfound
          cases hfound
        | some entries =>
          rw [if_pos]
          · rfl
          · rw [← h]
            exact List.mem_map_of_mem (index.find?_eq_some_iff.mp hfound)
      show ((index.find? key).map (fun entries => (key, entries))).toList = _
      by_cases hin : key ∈ keys
      · rw [if_pos hin] at hfind
        rw [List.filter_cons_of_pos (by simpa using hin), hfind]
        rfl
      · rw [if_neg hin] at hfind
        rw [List.filter_cons_of_neg (by simpa using hin), hfind]
        rfl
    · show firstOf max.toNat _ = [key].filter (fun k => k ∈ keys)
      rw [((List.pairwise_singleton Shorter key).filter _).insertionSort_eq]
      unfold firstOf
      split
      · rfl
      · rename_i hzero
        refine List.take_of_length_le ((List.length_filter_le _ _).trans ?_)
        exact Nat.one_le_iff_ne_zero.mpr hzero
  | commonPrefix =>
    refine hresult (prefixesOf_index h hkeys hnil hkey) ?_
    have hpairwise : key.inits.Pairwise Shorter := by
      rw [inits_eq_map_take, List.pairwise_map]
      refine List.pairwise_lt_range.imp_of_mem ?_
      intro a b ha hb hab
      rw [List.mem_range] at ha hb
      refine Or.inl ?_
      rw [List.length_take, List.length_take]
      omega
    rw [(hpairwise.filter _).insertionSort_eq]
    rfl
  | predictivePrefix =>
    refine hresult (l := (keys.filter (fun k => key.isPrefixOf k)).filter
      (fun k => !exclude || k != key)) ?_ ?_
    · show (prefixRange index key).filter (fun e => !exclude || e.1 != key) = _
      rw [prefixRange_index h, List.filter_map]
      rfl
    · rw [insertionSort_filter]
      rfl

end Mutable

/-! ## The two kinds of layers -/

/-- A file and a map answer the same entries, by surface, reading, category and
kind. -/
def Agrees (d : Impl) (s : Status) (index : Index) (key : Bytes) (ctx : LookupContext) : Prop :=
  ∃ out s', queryLayer (.static (some d)) true false key ctx s = some (out, s')
    ∧ ∃ out', queryLayer (.mutable index) true false key ctx s = some (out', s)
      ∧ out.map facets = out'.map facets

/-- The keys of a map that holds the same as a file. -/
theorem keys_of_holds {d : Impl} {keys : List Bytes} {s : Status} {index : Index}
    (h : d.Verified keys) (hs : s.available = true) (hholds : Holds d s index) :
    index.entries.map Prod.fst = keys := by
  have hsorted : (index.entries.map Prod.fst).Pairwise (· < ·) := by
    rw [List.pairwise_map]
    exact index.sorted
  have hmem : ∀ k, k ∈ index.entries.map Prod.fst ↔ k ∈ keys := by
    intro k
    have hfound := hholds.keys k
    rw [h.exactMatch_apply k hs, find_eq_ite] at hfound
    rw [List.mem_map]
    constructor
    · rintro ⟨e, he, rfl⟩
      have hsome : (index.find? e.1).isSome = true := by
        rw [index.find?_eq_some_iff.mpr he]
        rfl
      obtain ⟨m, hm⟩ := hfound.mpr hsome
      by_contra hno
      rw [if_neg hno] at hm
      cases hm
    · intro hin
      rw [if_pos hin] at hfound
      obtain ⟨entries, hentries⟩ := Option.isSome_iff_exists.mp (hfound.mp ⟨_, rfl⟩)
      exact ⟨(k, entries), index.find?_eq_some_iff.mp hentries, rfl⟩
  have hperm : (index.entries.map Prod.fst).Perm keys := by
    rw [List.perm_ext_iff_of_nodup (hsorted.imp (fun hlt => ne_of_lt hlt))
      (h.sorted.imp (fun hlt => ne_of_lt hlt))]
    exact hmem
  exact hperm.eq_of_pairwise (fun a b _ _ hab hba => absurd hab (lt_asymm hba)) hsorted h.sorted

/-- **A word does not change its place when it moves between layers.** A file and
a map that hold the same answer the same to every text, up to every number of
results and with or without the key itself. The beginnings of a key with a NUL
are left out, and the completions of the empty key; and to complete a key that
has no NUL, no cell below it may be reached by bytes that do not begin a text. -/
theorem queryLayer_agrees {σ : SectionSort} {image : Image} {d : Impl} {s : Status} {index : Index}
    {key : Bytes} {ctx : LookupContext} (hload : load σ image true = some (some d, s))
    (hholds : Holds d s index) (hkey : ValidUtf8 key)
    (hnul : ctx.mode = .commonPrefix → 0 ∉ key)
    (hcomplete : ctx.mode = .predictivePrefix → key ≠ [] ∧ (0 ∉ key → d.Clean key)) :
    Agrees d s index key ctx := by
  obtain ⟨hs, keys, hkeys⟩ := load_eq_some hload
  have hindex := keys_of_holds hkeys hs hholds
  have hnil : [] ∉ keys := by
    intro hmem
    have hnone := hkeys.find_eq_none (q := []) (Or.inl rfl)
    rw [find_eq_ite, if_pos hmem] at hnone
    cases hnone
  obtain ⟨found, hfound, hmatches⟩ :=
    staticMatches_apply hkeys hs hkey hnul hcomplete
  obtain ⟨out, hread, hfacets⟩ :=
    readMatches_apply hkeys hs hholds (fun k hk => mem_of_queried hk) []
  have hstatic : queryStatic d key ctx s = some (out, s) := by
    unfold queryStatic
    rw [bind_of_eq_some (isAvailable_apply s), hs, if_neg (by decide), bind_of_eq_some hfound,
      hmatches]
    exact hread
  refine ⟨out, s, hstatic, _, rfl, ?_⟩
  rw [hfacets, queryMutable_eq hindex hkeys.valid hnil hkey ctx, List.map_flatMap]
  rfl

/-- A layer in memory with one reading. -/
def oneIndex : Index :=
  ⟨[([1], [⟨[1], [1], [1], .nan, 0, 0, .exact⟩])], List.pairwise_singleton _ _⟩

/-- A dictionary of one key that has the entry of the layer in memory. -/
def hasOneEntry (d : Impl) (s : Status) : Bool :=
  d.keys == 1 && (d.exactMatch [1] s).any (fun found => found.1.any (fun m =>
    (d.readEntries m s).any (fun read => read.1.1 && decide (read.2 = s)
      && decide ((read.1.2.map DictionaryEntry.ofStatic).map facets = [([1], [1], 0, .exact)]))))

/-- It holds the same as the layer in memory. -/
theorem holds_oneIndex {d : Impl} {s : Status} {keys : List Bytes} (h : d.Verified keys)
    (hs : s.available = true) (hone : hasOneEntry d s = true) : Holds d s oneIndex := by
  unfold hasOneEntry at hone
  rw [Bool.and_eq_true, h.exactMatch_apply [1] hs, Option.any_some] at hone
  obtain ⟨hlength, hread⟩ := hone
  obtain ⟨m, hm, hread⟩ := (Option.any_eq_true _ _).mp hread
  obtain ⟨⟨⟨ok, out⟩, s'⟩, hout, hfacets⟩ := (Option.any_eq_true _ _).mp hread
  simp only [Bool.and_eq_true, decide_eq_true_eq] at hfacets
  obtain ⟨⟨rfl, rfl⟩, hfacets⟩ := hfacets
  have hfound : d.find keys [1] = some m := hm
  have hmem : [1] ∈ keys := h.mem_of_find hfound
  have hkeys : keys = [[1]] := by
    obtain ⟨k, rfl⟩ := List.length_eq_one_iff.mp (h.length.trans (eq_of_beq hlength))
    rw [List.mem_singleton.mp hmem]
  have hfind : ∀ q, oneIndex.find? q
      = if q = [1] then some [⟨[1], [1], [1], .nan, 0, 0, .exact⟩] else none := by
    intro q
    show AssocList.find? [([1], _)] q = _
    unfold AssocList.find?
    by_cases hq : q = [1]
    · rw [if_pos hq, if_pos hq]
    · rw [if_neg hq, if_neg hq]
      rfl
  constructor
  · intro q
    have hin : q ∈ keys ↔ q = [1] := by rw [hkeys, List.mem_singleton]
    rw [h.exactMatch_apply q hs, find_eq_ite, hfind]
    by_cases hq : q = [1]
    · rw [if_pos (hin.mpr hq), if_pos hq]
      exact iff_of_true ⟨_, rfl⟩ rfl
    · rw [if_neg (fun hmem => hq (hin.mp hmem)), if_neg hq]
      refine iff_of_false ?_ Bool.false_ne_true
      rintro ⟨m, hm⟩
      cases hm
  · intro q m' hm'
    rw [h.exactMatch_apply q hs] at hm'
    have hq : q = [1] := by
      have := h.mem_of_find (Prod.mk.inj (Option.some.inj hm')).1
      rwa [hkeys, List.mem_singleton] at this
    subst hq
    rw [hfound] at hm'
    cases hm'
    exact ⟨out, hout, by rw [hfacets, hfind, if_pos rfl]; rfl⟩

/-- The dictionary with one key, as it is loaded. -/
theorem load_oneEntry : ∃ d s, load .insertion oneEntryImage true = some (some d, s) ∧ Holds d s oneIndex := by
  have hany : ((load .insertion oneEntryImage true).any (fun r => r.1.any (fun d => hasOneEntry d r.2))) = true := by
    decide +kernel
  obtain ⟨⟨r, s⟩, hload, hr⟩ := (Option.any_eq_true _ _).mp hany
  obtain ⟨d, rfl, hone⟩ := (Option.any_eq_true _ _).mp hr
  obtain ⟨hs, keys, hkeys⟩ := load_eq_some hload
  exact ⟨d, s, hload, holds_oneIndex hkeys hs hone⟩

/-- The prefixes of a key, in a dictionary with one key. -/
theorem queryLayer_agrees_oneEntry : ∃ d s, load .insertion oneEntryImage true = some (some d, s)
    ∧ Holds d s oneIndex ∧ Agrees d s oneIndex [1, 2] ⟨.commonPrefix, 1, true⟩ := by
  obtain ⟨d, s, hload, hholds⟩ := load_oneEntry
  exact ⟨d, s, hload, hholds, queryLayer_agrees hload hholds
    (.of_all_ascii (by decide)) (fun _ => by decide) nofun⟩

/-- A file that answers nothing where the map has an entry. -/
theorem not_agrees {d : Impl} {s s' : Status} {index : Index} {key : Bytes} {ctx : LookupContext}
    (hstatic : queryStatic d key ctx s = some ([], s')) (hmutable : queryMutable index key ctx ≠ []) :
    ¬ Agrees d s index key ctx := by
  rintro ⟨out, s₁, hout, out', hout', hfacets⟩
  have hnil : out = [] := by
    have hsame : some (out, s₁) = some ([], s') := hout.symm.trans hstatic
    cases hsame
    rfl
  have hmap : out' = queryMutable index key ctx := by
    cases hout'
    rfl
  rw [hnil, hmap] at hfacets
  exact hmutable (List.map_eq_nil_iff.mp hfacets.symm)

/-- **The two kinds of layers differ** where `Lookup` does not ask: a map in memory
completes the empty key with all that it has, and finds a reading in front of a
NUL, and a file does neither. And a file with a cell that leads to no key gives
up a search that comes to it. -/
theorem not_queryLayer_agrees :
    (∃ d s, load .insertion oneEntryImage true = some (some d, s) ∧ Holds d s oneIndex
      ∧ (ValidUtf8 [] ∧ ¬ Agrees d s oneIndex [] ⟨.predictivePrefix, 0, false⟩)
      ∧ (ValidUtf8 [1, 0] ∧ ¬ Agrees d s oneIndex [1, 0] ⟨.commonPrefix, 0, false⟩))
    ∧ ∃ d s, load .insertion deadImage true = some (some d, s) ∧ Holds d s oneIndex
      ∧ (ValidUtf8 [1] ∧ ¬ Agrees d s oneIndex [1] ⟨.predictivePrefix, 0, false⟩) := by
  constructor
  · obtain ⟨d, s, hload, hholds⟩ := load_oneEntry
    obtain ⟨hs, -⟩ := load_eq_some hload
    refine ⟨d, s, hload, hholds, ⟨.nil, ?_⟩, ⟨.of_all_ascii (by decide), ?_⟩⟩
    · refine not_agrees (?_ : _ = some ([], s)) (by decide)
      have hsearch : staticMatches d [] ⟨.predictivePrefix, 0, false⟩ s = some ([], s) := by
        show d.predictiveSearch [] 0 s = _
        unfold Impl.predictiveSearch Impl.predictiveVisits
        rw [bind_apply, bind_of_eq_some (isAvailable_apply s), if_pos (by simp)]
        rfl
      unfold queryStatic
      rw [bind_of_eq_some (isAvailable_apply s), hs, if_neg (by decide), bind_of_eq_some hsearch]
      rfl
    · refine not_agrees (?_ : _ = some ([], s)) (by decide)
      have hinvalid : isValidUtf8 [1, 0] = false := by
        rw [Bool.eq_false_iff]
        exact fun hvalid => (isValidUtf8_iff.mp hvalid).2 (by decide)
      have hsearch : staticMatches d [1, 0] ⟨.commonPrefix, 0, false⟩ s = some ([], s) := by
        show d.commonPrefixSearch [1, 0] 0 s = _
        unfold Impl.commonPrefixSearch
        rw [bind_of_eq_some (isAvailable_apply s), hinvalid, if_pos (by simp)]
        rfl
      unfold queryStatic
      rw [bind_of_eq_some (isAvailable_apply s), hs, if_neg (by decide), bind_of_eq_some hsearch]
      rfl
  · obtain ⟨hs, keys, hkeys⟩ := load_eq_some load_deadImage
    have hone : hasOneEntry deadImpl ⟨true, ""⟩ = true := by decide +kernel
    refine ⟨deadImpl, ⟨true, ""⟩, load_deadImage, holds_oneIndex hkeys hs hone,
      .of_all_ascii (by decide), ?_⟩
    have hclean : ¬ deadImpl.Clean [1] := by
      intro hclean
      have hwalk : deadImpl.walk 0 [1, 0x80] = some 128 := by decide +kernel
      have hbegin := scan_isSome_iff.mpr (hclean [0x80] (by rw [List.singleton_append, hwalk]; rfl))
      exact absurd hbegin (by decide)
    obtain ⟨found, s', hsearch, hgone⟩ :=
      hkeys.predictiveSearch_unclean (.of_ascii (by decide)) (by decide) hs hclean
    refine not_agrees (?_ : _ = some ([], s')) (by decide)
    have hread : readMatches deadImpl [] found s' = some ([], s') := by
      cases found with
      | nil => rfl
      | cons m found =>
        have hnone : deadImpl.readEntries m s' = some ((false, []), s') := by
          unfold Impl.readEntries
          rw [bind_of_eq_some (isAvailable_apply s'), hgone]
          rfl
        rw [readMatches, bind_of_eq_some hnone]
        rfl
    unfold queryStatic
    rw [bind_of_eq_some (isAvailable_apply _), if_neg (by decide)]
    exact (bind_of_eq_some hsearch).trans hread

end AzooKey.Learning

import AzooKey.Host.EnglishLearning
import AzooKey.Learning.LearningReaders
import AzooKey.Lib.Windows

/-!
# The learned English words of a query

`QueryEnglishCandidates` of `inference-host/src/InferenceEngine.cpp` offers the
words that were learned for what is typed. It asks the store for the first words
of all that begin with the key, a window of 256, and takes from these the ones
that are stored under the key itself. A word that is stored under the key is lost
when too many longer ones are ranked before it: `learnedSurfaces_eq` says when
that does not happen.
-/

namespace AzooKey.Host

open English Learning LearningStore

/-- `kPrefixWindow`. -/
def prefixWindow : ℕ := 256

/-- `kMaxLearnedEnglish`. -/
def maxLearnedEnglish : ℕ := 8

section Learned

variable (exp : Double → Double)

/-- **The learned surfaces that `QueryEnglishCandidates` passes on**, when the
store is not locked. -/
def learnedSurfaces (store : LearningStore.Store) (rawRomaji : Bytes) (nowEpochSec : UInt64) :
    List Bytes :=
  let key := englishLookupKey rawRomaji
  (((store.lookupPrefix exp key prefixWindow zero nowEpochSec).found.filter
    (fun found => found.reading = key)).take maxLearnedEnglish).map PrefixMatch.surface

/-! ## What is to be offered -/

/-- A surface with the score that it has for a reading. -/
def wordOf (t : Table) (nowEpochSec : UInt64) (reading surface : Bytes) : PrefixMatch :=
  ⟨reading, surface, sumDecayedWeight exp (pairRows t reading surface) nowEpochSec⟩

/-- **The words stored under a key** that are not forgotten, by decreasing score
and then by surface. -/
def exactWords (t : Table) (nowEpochSec : UInt64) (key : Bytes) : List PrefixMatch :=
  (((surfaces t key).filter (fun surface => !allForgotten (pairRows t key surface))).map
    (wordOf exp t nowEpochSec key)).insertionSort (fun lhs rhs => lhs.place ≤ rhs.place)

/-- The words stored under the readings that begin with a key: those that are
neither forgotten nor below zero. -/
def begunWords (t : Table) (nowEpochSec : UInt64) (key : Bytes) : List PrefixMatch :=
  (pairsOf t ((readings t).filter (fun reading => key.isPrefixOf reading))).filterMap
    (matchOf exp t zero nowEpochSec)

/-- **A word that stands in the window**: its score is not below zero, and fewer
words than the window has places are better. -/
def InWindow (t : Table) (nowEpochSec : UInt64) (key : Bytes) (word : PrefixMatch) : Prop :=
  zero.ieeeLe word.score = true
    ∧ ((begunWords exp t nowEpochSec key).filter (fun other => betterMatch other word)).length
      < prefixWindow

end Learned

/-! ## The window -/

section Window

variable {exp : Double → Double} {t : Table} {nowEpochSec : UInt64} {key : Bytes}

/-- The readings are in their order. -/
theorem pairwise_readings (t : Table) : (readings t).Pairwise (· < ·) := by
  have hle : (t.entries.map (fun e => e.1.reading)).Pairwise (· ≤ ·) := by
    refine List.Pairwise.map _ (fun a b h => ?_) t.sorted
    exact (Prod.Lex.toLex_lt_toLex.mp h).elim le_of_lt (fun h => h.1.le)
  exact ((hle.sublist (List.dedup_sublist _)).and (List.nodup_dedup _)).imp
    (fun h => lt_of_le_of_ne h.1 h.2)

/-- **The scan visits all readings that begin with the key.** -/
theorem begun_eq (t : Table) (key : Bytes) :
    begun t key = (readings t).filter (fun reading => key.isPrefixOf reading) :=
  takeWhile_dropWhile_isPrefixOf (pairwise_readings t) key

/-- A surface of a reading has a row, and its reading is one of the readings. -/
theorem mem_readings_of_mem_surfaces {reading surface : Bytes} (h : surface ∈ surfaces t reading) :
    reading ∈ readings t := by
  obtain ⟨e, he, -⟩ := List.mem_map.mp (List.mem_dedup.mp h)
  obtain ⟨he, hreading⟩ := List.mem_filter.mp he
  exact List.mem_dedup.mpr (List.mem_map.mpr ⟨e, he, by simpa using hreading⟩)

/-- What the store finds for a pair. -/
theorem matchOf_eq_some_iff {pair : Bytes × Bytes} {word : PrefixMatch} :
    matchOf exp t zero nowEpochSec pair = some word
      ↔ word = wordOf exp t nowEpochSec pair.1 pair.2 ∧ allForgotten (pairRows t pair.1 pair.2) = false
        ∧ zero.ieeeLe word.score = true := by
  unfold matchOf wordOf
  dsimp only
  split_ifs with hforgotten hscore
  · exact iff_of_false (by simp) (fun h => by rw [h.2.1] at hforgotten; cases hforgotten)
  · rw [Option.some.injEq]
    exact ⟨fun h => ⟨h.symm, by simpa using hforgotten, h ▸ hscore⟩, fun h => h.1.symm⟩
  · refine iff_of_false (by simp) (fun h => hscore ?_)
    have hle := h.2.2
    rw [h.1] at hle
    exact hle

/-- **The words that begin with a key.** -/
theorem mem_begunWords_iff {word : PrefixMatch} :
    word ∈ begunWords exp t nowEpochSec key
      ↔ word = wordOf exp t nowEpochSec word.reading word.surface
        ∧ key <+: word.reading ∧ word.surface ∈ surfaces t word.reading
        ∧ allForgotten (pairRows t word.reading word.surface) = false
        ∧ zero.ieeeLe word.score = true := by
  unfold begunWords pairsOf
  simp only [List.mem_filterMap, List.mem_flatMap, List.mem_map, List.mem_filter,
    List.isPrefixOf_iff_prefix]
  constructor
  · rintro ⟨-, ⟨reading, ⟨-, hkey⟩, surface, hsurface, rfl⟩, hword⟩
    obtain ⟨heq, hlive, hscore⟩ := matchOf_eq_some_iff.mp hword
    subst heq
    exact ⟨rfl, hkey, hsurface, hlive, hscore⟩
  · rintro ⟨heq, hkey, hsurface, hlive, hscore⟩
    exact ⟨(word.reading, word.surface), ⟨word.reading,
      ⟨mem_readings_of_mem_surfaces hsurface, hkey⟩, word.surface, hsurface, rfl⟩,
      matchOf_eq_some_iff.mpr ⟨heq, hlive, hscore⟩⟩

/-- **The words stored under a key.** -/
theorem mem_exactWords_iff {word : PrefixMatch} :
    word ∈ exactWords exp t nowEpochSec key
      ↔ word = wordOf exp t nowEpochSec key word.surface ∧ word.surface ∈ surfaces t key
        ∧ allForgotten (pairRows t key word.surface) = false := by
  unfold exactWords
  rw [List.mem_insertionSort]
  simp only [List.mem_map, List.mem_filter, Bool.not_eq_true']
  constructor
  · rintro ⟨surface, ⟨hsurface, hlive⟩, rfl⟩
    exact ⟨rfl, hsurface, hlive⟩
  · rintro ⟨heq, hsurface, hlive⟩
    exact ⟨word.surface, ⟨hsurface, hlive⟩, heq.symm⟩

/-- A word stored under the key begins with it. -/
theorem mem_begunWords_exact {word : PrefixMatch} :
    word ∈ begunWords exp t nowEpochSec key ∧ word.reading = key
      ↔ word ∈ exactWords exp t nowEpochSec key ∧ zero.ieeeLe word.score = true := by
  rw [mem_begunWords_iff, mem_exactWords_iff]
  constructor
  · rintro ⟨⟨heq, -, hsurface, hlive, hscore⟩, rfl⟩
    exact ⟨⟨heq, hsurface, hlive⟩, hscore⟩
  · rintro ⟨⟨heq, hsurface, hlive⟩, hscore⟩
    have hreading : word.reading = key := by
      rw [heq]
      rfl
    rw [hreading]
    exact ⟨⟨heq, List.prefix_rfl, hsurface, hlive, hscore⟩, rfl⟩

/-- A score that is not below zero can be compared. -/
theorem score_ne_nan {word : PrefixMatch} (h : word ∈ begunWords exp t nowEpochSec key) :
    word.score ≠ .nan :=
  (Double.ieeeLe_iff.mp (mem_begunWords_iff.mp h).2.2.2.2).2.1

/-- **One place, one word.** -/
theorem eq_of_place {a b : PrefixMatch} (ha : a = wordOf exp t nowEpochSec a.reading a.surface)
    (hb : b = wordOf exp t nowEpochSec b.reading b.surface) (h : a.place = b.place) : a = b := by
  have hpair := (Prod.mk.inj (toLex.injective h)).2
  obtain ⟨hreading, hsurface⟩ := Prod.mk.inj (toLex.injective hpair)
  rw [ha, hb, hreading, hsurface]

/-- What is better has a place before. -/
theorem betterMatch_iff {a b : PrefixMatch} (ha : a.score ≠ .nan) (hb : b.score ≠ .nan) :
    betterMatch a b = true ↔ a.place < b.place := by
  have hbefore := PrefixMatch.before_iff hb ha
  unfold PrefixMatch.Before at hbefore
  rw [← not_le, ← hbefore, Bool.not_eq_false]

/-- No word is found twice. -/
theorem nodup_begunWords : (begunWords exp t nowEpochSec key).Nodup := by
  refine List.Nodup.filterMap (fun a b m ha hb => ?_) (nodup_pairsOf ?_)
  · exact (of_matchOf ha).1.symm.trans (of_matchOf hb).1
  · exact (List.nodup_dedup _).filter _

/-- No word is stored twice. -/
theorem nodup_exactWords : (exactWords exp t nowEpochSec key).Nodup := by
  refine (List.perm_insertionSort _ _).nodup_iff.mpr ?_
  refine ((List.nodup_dedup _).filter _).map (fun a b h => ?_)
  exact (PrefixMatch.mk.inj h).2.1

/-- The words that begin with the key, as they are ranked. -/
theorem pairwise_ranked :
    ((begunWords exp t nowEpochSec key).insertionSort PrefixMatch.Before).Pairwise
      (fun a b => betterMatch a b = true) := by
  have hsorted : ((begunWords exp t nowEpochSec key).insertionSort PrefixMatch.Before).Pairwise
      PrefixMatch.Before := by
    refine pairwise_insertionSort_of_mem (fun a ha b hb => ?_) (fun a ha b hb c hc => ?_)
    · rw [PrefixMatch.before_iff (score_ne_nan ha) (score_ne_nan hb),
        PrefixMatch.before_iff (score_ne_nan hb) (score_ne_nan ha)]
      exact le_total _ _
    · rw [PrefixMatch.before_iff (score_ne_nan ha) (score_ne_nan hb),
        PrefixMatch.before_iff (score_ne_nan hb) (score_ne_nan hc),
        PrefixMatch.before_iff (score_ne_nan ha) (score_ne_nan hc)]
      exact le_trans
  have hnodup : (begunWords exp t nowEpochSec key).Nodup := nodup_begunWords
  have hdiff := (List.perm_insertionSort PrefixMatch.Before _).nodup_iff.mpr hnodup
  refine (hsorted.and hdiff).imp_of_mem (fun {a b} ha hb h => ?_)
  rw [List.mem_insertionSort] at ha hb
  rw [betterMatch_iff (score_ne_nan ha) (score_ne_nan hb)]
  have hle := (PrefixMatch.before_iff (score_ne_nan ha) (score_ne_nan hb)).mp h.1
  exact lt_of_le_of_ne hle (fun heq =>
    h.2 (eq_of_place (mem_begunWords_iff.mp ha).1 (mem_begunWords_iff.mp hb).1 heq))

/-- **The ranked words that are stored under the key** are those words in order,
but for the ones below zero. -/
theorem filter_ranked :
    ((begunWords exp t nowEpochSec key).insertionSort PrefixMatch.Before).filter
        (fun word => word.reading = key)
      = (exactWords exp t nowEpochSec key).filter (fun word => zero.ieeeLe word.score) := by
  have hranked : (((begunWords exp t nowEpochSec key).insertionSort PrefixMatch.Before).filter
      (fun word => word.reading = key)).Pairwise (fun a b => a.place < b.place) := by
    refine (pairwise_ranked.imp_of_mem (fun {a b} ha hb h => ?_)).filter _
    rw [List.mem_insertionSort] at ha hb
    exact (betterMatch_iff (score_ne_nan ha) (score_ne_nan hb)).mp h
  have hexact : ((exactWords exp t nowEpochSec key).filter
      (fun word => zero.ieeeLe word.score)).Pairwise (fun a b => a.place < b.place) := by
    have hle : (exactWords exp t nowEpochSec key).Pairwise (fun a b => a.place ≤ b.place) :=
      pairwise_insertionSort_of_mem (fun a _ b _ => le_total _ _) (fun a _ b _ c _ => le_trans)
    refine ((hle.and nodup_exactWords).imp_of_mem (fun {a b} ha hb h =>
      lt_of_le_of_ne h.1 (fun heq => h.2 ?_))).filter _
    have hword : ∀ {word}, word ∈ exactWords exp t nowEpochSec key →
        word = wordOf exp t nowEpochSec word.reading word.surface := by
      intro word hmem
      have hself := (mem_exactWords_iff.mp hmem).1
      rw [hself]
      rfl
    exact eq_of_place (hword ha) (hword hb) heq
  refine List.Perm.eq_of_pairwise (fun a b _ _ hab hba => absurd hab (lt_asymm hba)) hranked hexact ?_
  refine (List.perm_ext_iff_of_nodup (hranked.imp (fun h heq => ?_)) (hexact.imp (fun h heq => ?_))).mpr
    (fun word => ?_)
  · rw [heq] at h
    exact lt_irrefl _ h
  · rw [heq] at h
    exact lt_irrefl _ h
  · rw [List.mem_filter, List.mem_filter, List.mem_insertionSort, decide_eq_true_eq]
    exact mem_begunWords_exact

/-- **Where a word stands** among those that begin with the key. -/
theorem mem_window_iff {word : PrefixMatch} (hword : word ∈ begunWords exp t nowEpochSec key) :
    word ∈ ((begunWords exp t nowEpochSec key).insertionSort PrefixMatch.Before).take prefixWindow
      ↔ ((begunWords exp t nowEpochSec key).filter (fun other => betterMatch other word)).length
        < prefixWindow := by
  have hasymm : ∀ a ∈ (begunWords exp t nowEpochSec key).insertionSort PrefixMatch.Before,
      ∀ b ∈ (begunWords exp t nowEpochSec key).insertionSort PrefixMatch.Before,
      betterMatch a b = true → betterMatch b a = false := by
    intro a ha b hb h
    rw [List.mem_insertionSort] at ha hb
    rw [betterMatch_iff (score_ne_nan ha) (score_ne_nan hb)] at h
    rw [Bool.eq_false_iff, ne_eq, betterMatch_iff (score_ne_nan hb) (score_ne_nan ha)]
    exact lt_asymm h
  rw [mem_take_iff pairwise_ranked hasymm ((List.mem_insertionSort _).mpr hword)]
  rw [((List.perm_insertionSort PrefixMatch.Before _).filter _).length_eq]

/-- **What is picked from the window** is the first exact words if and only if these
stand in it. -/
theorem picked_eq_iff (k : ℕ) :
    (((((begunWords exp t nowEpochSec key).insertionSort PrefixMatch.Before).take
        prefixWindow).filter (fun word => word.reading = key)).take k).map PrefixMatch.surface
        = ((exactWords exp t nowEpochSec key).take k).map PrefixMatch.surface
      ↔ ∀ word ∈ (exactWords exp t nowEpochSec key).take k, InWindow exp t nowEpochSec key word := by
  have hnodup : (begunWords exp t nowEpochSec key).Nodup := nodup_begunWords
  have hranked := (List.perm_insertionSort PrefixMatch.Before _).nodup_iff.mpr hnodup
  constructor
  · intro h word hword
    -- The surfaces say which words are picked.
    have hback : ∀ {l : List PrefixMatch}, (∀ a ∈ l, a = wordOf exp t nowEpochSec key a.surface) →
        (l.map PrefixMatch.surface).map (wordOf exp t nowEpochSec key) = l := by
      intro l hl
      rw [List.map_map]
      exact (List.map_congr_left (fun a ha => (hl a ha).symm)).trans (List.map_id l)
    have hpicked := congrArg (List.map (wordOf exp t nowEpochSec key)) h
    rw [hback, hback] at hpicked
    · rw [← hpicked] at hword
      obtain ⟨hwindow, hreading⟩ := List.mem_filter.mp (List.mem_of_mem_take hword)
      have hbegun := (List.mem_insertionSort _).mp (List.mem_of_mem_take hwindow)
      exact ⟨(mem_begunWords_iff.mp hbegun).2.2.2.2, (mem_window_iff hbegun).mp hwindow⟩
    · exact fun a ha => (mem_exactWords_iff.mp (List.mem_of_mem_take ha)).1
    · intro a ha
      obtain ⟨hwindow, hreading⟩ := List.mem_filter.mp (List.mem_of_mem_take ha)
      have hbegun := (List.mem_insertionSort _).mp (List.mem_of_mem_take hwindow)
      have hself := (mem_begunWords_iff.mp hbegun).1
      rw [of_decide_eq_true hreading] at hself
      exact hself
  · intro h
    have hfirst : ((exactWords exp t nowEpochSec key).filter (fun word => zero.ieeeLe word.score)).take k
        = (exactWords exp t nowEpochSec key).take k :=
      take_filter_of_forall (fun word hword => (h word hword).1)
    rw [(filter_take_eq_iff hranked _ _ _).mpr, filter_ranked, hfirst]
    intro word hword
    rw [filter_ranked, hfirst] at hword
    obtain ⟨hscore, hplace⟩ := h word hword
    exact (mem_window_iff (mem_begunWords_exact.mpr ⟨List.mem_of_mem_take hword, hscore⟩).1).mpr hplace

end Window

/-- What is picked for a key. -/
theorem learnedSurfaces_of_ne (exp : Double → Double) (store : LearningStore.Store) {rawRomaji : Bytes}
    (hraw : rawRomaji ≠ []) (nowEpochSec : UInt64) :
    learnedSurfaces exp store rawRomaji nowEpochSec
      = (((((begunWords exp store.table nowEpochSec (englishLookupKey rawRomaji)).insertionSort
          PrefixMatch.Before).take prefixWindow).filter
            (fun word => word.reading = englishLookupKey rawRomaji)).take maxLearnedEnglish).map
              PrefixMatch.surface := by
  have hkey : englishLookupKey rawRomaji ≠ [] := by
    unfold englishLookupKey
    simpa using hraw
  unfold learnedSurfaces LearningStore.Store.lookupPrefix begunWords
  dsimp only
  rw [if_neg (by rw [not_or]; exact ⟨hkey, by decide⟩), begun_eq]

/-- **The learned surfaces are the first exact words if and only if these stand in
the window.** Nothing is found for the empty key. -/
theorem learnedSurfaces_eq (exp : Double → Double) (store : LearningStore.Store) (rawRomaji : Bytes)
    (nowEpochSec : UInt64) :
    learnedSurfaces exp store rawRomaji nowEpochSec
        = ((exactWords exp store.table nowEpochSec (englishLookupKey rawRomaji)).take
            maxLearnedEnglish).map PrefixMatch.surface
      ↔ if rawRomaji = [] then exactWords exp store.table nowEpochSec [] = []
        else ∀ word ∈ (exactWords exp store.table nowEpochSec (englishLookupKey rawRomaji)).take
            maxLearnedEnglish,
          InWindow exp store.table nowEpochSec (englishLookupKey rawRomaji) word := by
  by_cases hraw : rawRomaji = []
  · subst hraw
    rw [if_pos rfl]
    show [] = List.map _ (List.take _ (exactWords exp store.table nowEpochSec [])) ↔ _
    rw [eq_comm, List.map_eq_nil_iff, List.take_eq_nil_iff]
    exact ⟨fun h => h.resolve_left (by decide), Or.inr⟩
  · rw [if_neg hraw, learnedSurfaces_of_ne exp store hraw, picked_eq_iff]

/-! ## A store that is crowded -/

/-- A commit of a word at one time, with the weight that a commit has. -/
def commitWord (word : Bytes) : StoreOp :=
  .observeEvent { reading := word, surface := word } legacyCommitWeight 0

/-- Words that begin with one of two letters. -/
def longWord (i : ℕ) : Bytes := utf8 "th" ++ List.replicate (i + 1) 0x61

/-- A store of one short word, committed once, and of longer ones, committed
twice. -/
def crowdedOps (n : ℕ) : List StoreOp :=
  commitWord (utf8 "th")
    :: (List.range n).flatMap (fun i => [commitWord (longWord i), commitWord (longWord i)])

/-- The row after some commits. -/
def commits : ℕ → Record
  | 0 => {}
  | n + 1 =>
    { applyEvent .commit legacyCommitWeight (commits n) with
      lastUpdatedEpochSec := 0
      lastEvent := .commit
      contextHash := [] }

/-- The key of a word. -/
def wordKey (word : Bytes) : Key := ⟨word, word, []⟩

/-- Keys of different words are different. -/
theorem wordKey_inj {word word' : Bytes} (h : wordKey word = wordKey word') : word = word' :=
  (Key.mk.inj h).1

/-- What a commit does to a table. -/
theorem find?_commitWord (s : LearningStore.Store) {word : Bytes} {n : ℕ}
    (h : (s.table.find? (wordKey word)).getD {} = commits n) (key : Key) :
    ((commitWord word).apply s).table.find? key
      = if key = wordKey word then some (commits (n + 1)) else s.table.find? key := by
  have hkey : Observation.key { reading := word, surface := word } = wordKey word := rfl
  show (s.observeEvent _ _ _).table.find? key = _
  unfold LearningStore.Store.observeEvent
  rw [if_neg (by simp), OrderedMap.find?_assign, hkey, observedRecord, hkey, h]
  rfl

/-- The words are different. -/
theorem longWord_inj {i j : ℕ} (h : longWord i = longWord j) : i = j := by
  have hlen := congrArg List.length h
  simp only [longWord, List.length_append, List.length_replicate] at hlen
  omega

/-- None is the short one. -/
theorem longWord_ne (i : ℕ) : longWord i ≠ utf8 "th" := by
  intro h
  have hlen := congrArg List.length h
  simp only [longWord, List.length_append, List.length_replicate] at hlen
  omega

/-- **The rows of the crowded store.** -/
theorem find?_crowded (n : ℕ) (key : Key) :
    (runOps {} (crowdedOps n)).table.find? key
      = if key = wordKey (utf8 "th") then some (commits 1)
        else if ∃ i < n, key = wordKey (longWord i) then some (commits 2) else none := by
  induction n generalizing key with
  | zero =>
    show ((commitWord (utf8 "th")).apply {}).table.find? key = _
    rw [find?_commitWord {} (n := 0) rfl]
    simp
  | succ n ih =>
    have hops : crowdedOps (n + 1)
        = crowdedOps n ++ [commitWord (longWord n), commitWord (longWord n)] := by
      unfold crowdedOps
      rw [List.range_succ, List.flatMap_append, List.flatMap_singleton, List.cons_append]
    generalize hs : runOps {} (crowdedOps n) = s at ih
    have hrun : runOps {} (crowdedOps (n + 1))
        = (commitWord (longWord n)).apply ((commitWord (longWord n)).apply s) := by
      rw [hops, runOps, List.foldl_append, ← hs]
      rfl
    have hfresh : (s.table.find? (wordKey (longWord n))).getD {} = commits 0 := by
      have hne : wordKey (longWord n) ≠ wordKey (utf8 "th") := fun h => longWord_ne n (wordKey_inj h)
      have hnew : ¬ ∃ i < n, wordKey (longWord n) = wordKey (longWord i) := by
        rintro ⟨i, hi, h⟩
        exact absurd (longWord_inj (wordKey_inj h)) (by omega)
      rw [ih, if_neg hne, if_neg hnew]
      rfl
    have hfirst := find?_commitWord s hfresh
    have hagain : (((commitWord (longWord n)).apply s).table.find? (wordKey (longWord n))).getD {}
        = commits 1 := by
      rw [hfirst, if_pos rfl]
      rfl
    rw [hrun, find?_commitWord _ hagain, hfirst, ih]
    by_cases hkey : key = wordKey (longWord n)
    · rw [if_pos hkey, if_neg, if_pos ⟨n, Nat.lt_succ_self n, hkey⟩]
      rw [hkey]
      exact fun h => longWord_ne n (wordKey_inj h)
    · rw [if_neg hkey, if_neg hkey]
      refine ite_congr rfl (fun _ => rfl) (fun _ => if_congr ?_ rfl rfl)
      constructor
      · rintro ⟨i, hi, h⟩
        exact ⟨i, Nat.lt_succ_of_lt hi, h⟩
      · rintro ⟨i, hi, h⟩
        refine ⟨i, ?_, h⟩
        obtain hi | rfl := Nat.lt_succ_iff_lt_or_eq.mp hi
        · exact hi
        · exact absurd h hkey

/-- The value one, which is `std::exp` of zero. -/
def one : Double := .finite (.ofInt 1 Binary64.natAbs_one_lt)

/-- A word with one row. -/
theorem mem_surfaces_of_find? {t : Table} {word : Bytes} {rec : Record}
    (h : t.find? (wordKey word) = some rec) : word ∈ surfaces t word := by
  refine List.mem_dedup.mpr (List.mem_map.mpr ⟨(wordKey word, rec), ?_, rfl⟩)
  exact List.mem_filter.mpr ⟨(OrderedMap.find?_eq_some_iff _).mp h, by simp [wordKey]⟩

/-- Every row of the crowded store is that of a word. -/
theorem exists_wordKey {n : ℕ} {key : Key} {rec : Record}
    (h : (runOps {} (crowdedOps n)).table.find? key = some rec) : ∃ word, key = wordKey word := by
  rw [find?_crowded] at h
  split_ifs at h with hshort hlong
  · exact ⟨_, hshort⟩
  · obtain ⟨i, -, hi⟩ := hlong
    exact ⟨_, hi⟩

/-- The rows of a word of the crowded store. -/
theorem pairRows_crowded {n : ℕ} {word : Bytes} {rec : Record}
    (h : (runOps {} (crowdedOps n)).table.find? (wordKey word) = some rec) :
    pairRows (runOps {} (crowdedOps n)).table word word = [(wordKey word, rec)] := by
  have hnodup : (pairRows (runOps {} (crowdedOps n)).table word word).Nodup := by
    refine List.Nodup.filter _ ?_
    exact (OrderedMap.sorted _).imp (fun hlt heq => absurd hlt (by rw [heq]; exact lt_irrefl _))
  refine List.perm_singleton.mp ((List.perm_ext_iff_of_nodup hnodup (List.nodup_singleton _)).mpr
    (fun row => ?_))
  rw [mem_pairRows, List.mem_singleton]
  constructor
  · rintro ⟨hfound, hpair⟩
    obtain ⟨word', hkey⟩ := exists_wordKey hfound
    have hreading : row.1.reading = word := (of_decide_eq_true hpair).1
    rw [hkey] at hreading
    obtain rfl : word' = word := hreading
    rw [hkey, h] at hfound
    exact Prod.ext hkey (Option.some.inj hfound).symm
  · rintro rfl
    exact ⟨h, by simp [Key.ofPair, wordKey]⟩

/-- The score of a word of the crowded store. -/
theorem wordOf_crowded {n : ℕ} {word : Bytes} {rec : Record}
    (h : (runOps {} (crowdedOps n)).table.find? (wordKey word) = some rec) :
    wordOf (fun _ => one) (runOps {} (crowdedOps n)).table 0 word word
      = ⟨word, word, zero.add (rec.weight.mul one)⟩ := by
  unfold wordOf sumDecayedWeight
  rw [pairRows_crowded h]
  rfl

/-- What two commits make of a score is more than what one makes of it. -/
theorem scores_commits :
    (zero.ieeeLe (zero.add ((commits 1).weight.mul one)) = true
      ∧ zero.ieeeLe (zero.add ((commits 2).weight.mul one)) = true)
      ∧ (zero.add ((commits 2).weight.mul one)).ieeeEq (zero.add ((commits 1).weight.mul one)) = false
      ∧ (zero.add ((commits 1).weight.mul one)).ieeeLt (zero.add ((commits 2).weight.mul one))
        = true := by
  decide +kernel

/-- A long word is found for the short key, and is better. -/
theorem longWord_found {n i : ℕ} (hi : i < n) :
    wordOf (fun _ => one) (runOps {} (crowdedOps n)).table 0 (longWord i) (longWord i)
        ∈ begunWords (fun _ => one) (runOps {} (crowdedOps n)).table 0 (utf8 "th")
      ∧ betterMatch
        (wordOf (fun _ => one) (runOps {} (crowdedOps n)).table 0 (longWord i) (longWord i))
        (wordOf (fun _ => one) (runOps {} (crowdedOps n)).table 0 (utf8 "th") (utf8 "th")) = true := by
  have hlong : (runOps {} (crowdedOps n)).table.find? (wordKey (longWord i)) = some (commits 2) := by
    rw [find?_crowded, if_neg (fun h => longWord_ne i (wordKey_inj h)), if_pos ⟨i, hi, rfl⟩]
  have hshort : (runOps {} (crowdedOps n)).table.find? (wordKey (utf8 "th")) = some (commits 1) := by
    rw [find?_crowded, if_pos rfl]
  obtain ⟨⟨-, hpos⟩, hne, hlt⟩ := scores_commits
  constructor
  · rw [mem_begunWords_iff]
    refine ⟨rfl, List.prefix_append _ _, mem_surfaces_of_find? hlong, ?_, ?_⟩
    · have hlive : (commits 2).isForgotten = false := by decide +kernel
      show allForgotten (pairRows _ (longWord i) (longWord i)) = false
      rw [pairRows_crowded hlong]
      simp [allForgotten, hlive]
    · rw [wordOf_crowded hlong]
      exact hpos
  · rw [wordOf_crowded hlong, wordOf_crowded hshort]
    unfold betterMatch
    rw [hne]
    exact hlt

/-- The short word is the only one stored under its key. -/
theorem mem_exactWords_crowded (n : ℕ) :
    wordOf (fun _ => one) (runOps {} (crowdedOps n)).table 0 (utf8 "th") (utf8 "th")
      ∈ (exactWords (fun _ => one) (runOps {} (crowdedOps n)).table 0 (utf8 "th")).take
        maxLearnedEnglish := by
  have hshort : (runOps {} (crowdedOps n)).table.find? (wordKey (utf8 "th")) = some (commits 1) := by
    rw [find?_crowded, if_pos rfl]
  have honly : ∀ word ∈ exactWords (fun _ => one) (runOps {} (crowdedOps n)).table 0 (utf8 "th"),
      word = wordOf (fun _ => one) (runOps {} (crowdedOps n)).table 0 (utf8 "th") (utf8 "th") := by
    intro word hword
    obtain ⟨heq, hsurface, -⟩ := mem_exactWords_iff.mp hword
    obtain ⟨e, he, hes⟩ := List.mem_map.mp (List.mem_dedup.mp hsurface)
    obtain ⟨he, hreading⟩ := List.mem_filter.mp he
    obtain ⟨word', hkey⟩ := exists_wordKey ((OrderedMap.find?_eq_some_iff _).mpr he)
    rw [hkey] at hes
    have hword' : word' = utf8 "th" := by
      have hr : e.1.reading = utf8 "th" := of_decide_eq_true hreading
      rw [hkey] at hr
      exact hr
    have hsurface' : word.surface = utf8 "th" := hes.symm.trans hword'
    rw [heq, hsurface']
  have hmem : wordOf (fun _ => one) (runOps {} (crowdedOps n)).table 0 (utf8 "th") (utf8 "th")
      ∈ exactWords (fun _ => one) (runOps {} (crowdedOps n)).table 0 (utf8 "th") := by
    have hlive : (commits 1).isForgotten = false := by decide +kernel
    refine mem_exactWords_iff.mpr ⟨rfl, mem_surfaces_of_find? hshort, ?_⟩
    show allForgotten (pairRows _ (utf8 "th") (utf8 "th")) = false
    rw [pairRows_crowded hshort]
    simp [allForgotten, hlive]
  obtain ⟨first, rest, hfirst⟩ := List.exists_cons_of_ne_nil (List.ne_nil_of_mem hmem)
  rw [hfirst] at honly ⊢
  rw [honly first List.mem_cons_self]
  exact List.mem_cons_self

/-- The short word is not in the window when there are that many long ones. -/
theorem not_inWindow_crowded {n : ℕ} (hn : prefixWindow ≤ n) :
    ¬ InWindow (fun _ => one) (runOps {} (crowdedOps n)).table 0 (utf8 "th")
      (wordOf (fun _ => one) (runOps {} (crowdedOps n)).table 0 (utf8 "th") (utf8 "th")) := by
  rintro ⟨-, hwindow⟩
  have hlong : ((List.range n).map (fun i =>
      wordOf (fun _ => one) (runOps {} (crowdedOps n)).table 0 (longWord i) (longWord i))).Nodup :=
    List.nodup_range.map (fun i j h => longWord_inj (PrefixMatch.mk.inj h).1)
  have hbetter : (List.range n).map (fun i =>
      wordOf (fun _ => one) (runOps {} (crowdedOps n)).table 0 (longWord i) (longWord i))
      ⊆ (begunWords (fun _ => one) (runOps {} (crowdedOps n)).table 0 (utf8 "th")).filter
        (fun other => betterMatch other
          (wordOf (fun _ => one) (runOps {} (crowdedOps n)).table 0 (utf8 "th") (utf8 "th"))) := by
    intro word hword
    obtain ⟨i, hi, rfl⟩ := List.mem_map.mp hword
    exact List.mem_filter.mpr (longWord_found (List.mem_range.mp hi))
  have hsub := (List.subperm_of_subset hlong hbetter).length_le
  rw [List.length_map, List.length_range] at hsub
  omega

/-- **A learned word is lost** behind as many longer ones as the window has
places. -/
theorem learnedSurfaces_crowded :
    learnedSurfaces (fun _ => one) (runOps {} (crowdedOps prefixWindow)) (utf8 "th") 0
      ≠ ((exactWords (fun _ => one) (runOps {} (crowdedOps prefixWindow)).table 0
          (englishLookupKey (utf8 "th"))).take maxLearnedEnglish).map PrefixMatch.surface := by
  have hkey : englishLookupKey (utf8 "th") = utf8 "th" := by decide
  have hsize : prefixWindow ≤ prefixWindow := le_rfl
  generalize hn : prefixWindow = n at hsize
  rw [learnedSurfaces_of_ne _ _ (by decide), hkey, ne_eq, picked_eq_iff]
  intro hall
  rw [← hn] at hsize
  exact not_inWindow_crowded (hn ▸ hsize) (hall _ (mem_exactWords_crowded n))

end AzooKey.Host

import AzooKey.Lib.DoubleOrder
import AzooKey.Lib.InsertionSort
import AzooKey.Learning.LearningStoreText

/-!
# What can be read of a forgotten pair

`LearningStore.cpp`: `Forget` leaves the rows of a pair where they are, with
weight zero and no counts, so that a merge still finds them. Each reader has to
see by itself that such a pair is gone: `Score` sums weights, `LookupPrefix`
asks all the rows, `ReverseLookup` wants a positive sum, `Aggregates` wants a
weight or a count, and `SerializeText` asks every single row.

None of them misses it, through any run in which no live row of the pair is put
in (`forgotten_run`). For the other pairs nothing changes, except that a place
becomes free: the next best match enters a limited list, and the next best
reading is named.
-/

namespace AzooKey.Learning.LearningStore

/-! ## The source -/

/-- The readings of a table, in their order. -/
def readings (t : Table) : List Bytes := (t.entries.map (fun e => e.1.reading)).dedup

/-- The surfaces of a reading, in their order. -/
def surfaces (t : Table) (reading : Bytes) : List Bytes :=
  ((t.entries.filter (fun e => e.1.reading = reading)).map (fun e => e.1.surface)).dedup

/-- The pairs in the order of the nested iteration, over some of the readings. -/
def pairsOf (t : Table) (readings : List Bytes) : List (Bytes × Bytes) :=
  readings.flatMap (fun reading => (surfaces t reading).map (fun surface => (reading, surface)))

/-- `AllForgotten`. -/
def allForgotten (rows : List (Key × Record)) : Bool := rows.all (fun row => row.2.isForgotten)

/-- `LearningAggregate`. -/
structure Aggregate where
  reading : Bytes
  surface : Bytes
  weight : Double := zero
  lastUpdatedEpochSec : UInt64 := 0
  commitCount : UInt64 := 0
  acceptCount : UInt64 := 0
  rejectCount : UInt64 := 0
  appNames : List Bytes := []

/-- One row of `Aggregates`. -/
def Aggregate.addRow (aggregate : Aggregate) (row : Key × Record) : Aggregate :=
  if row.2.isForgotten then aggregate
  else
    { aggregate with
      weight := aggregate.weight.add row.2.weight
      lastUpdatedEpochSec := max aggregate.lastUpdatedEpochSec row.2.lastUpdatedEpochSec
      commitCount := aggregate.commitCount + row.2.commitCount
      acceptCount := aggregate.acceptCount + row.2.acceptCount
      rejectCount := aggregate.rejectCount + row.2.rejectCount
      appNames := if row.1.appName = [] then aggregate.appNames
        else aggregate.appNames ++ [row.1.appName] }

/-- An aggregate that is listed. -/
def Aggregate.isListed (aggregate : Aggregate) : Bool :=
  zero.ieeeLt aggregate.weight || 0 < aggregate.commitCount || 0 < aggregate.acceptCount
    || 0 < aggregate.rejectCount

/-- What `Aggregates` lists for a pair. -/
def aggregateOf (t : Table) (pair : Bytes × Bytes) : Option Aggregate :=
  let aggregate := (pairRows t pair.1 pair.2).foldl Aggregate.addRow
    { reading := pair.1, surface := pair.2 }
  if aggregate.isListed then some aggregate else none

/-- **`Aggregates`.** -/
def Store.aggregates (s : Store) : List Aggregate :=
  (pairsOf s.table (readings s.table)).filterMap (aggregateOf s.table)

/-- `PrefixMatch`. -/
structure PrefixMatch where
  reading : Bytes
  surface : Bytes
  score : Double
deriving DecidableEq

/-- `PrefixLookupResult`. -/
structure PrefixLookupResult where
  found : List PrefixMatch := []
  visitedReadings : ℕ := 0
  scannedRecords : ℕ := 0

/-- `better_match`. -/
def betterMatch (lhs rhs : PrefixMatch) : Bool :=
  if !lhs.score.ieeeEq rhs.score then rhs.score.ieeeLt lhs.score
  else if lhs.reading ≠ rhs.reading then lhs.reading < rhs.reading
  else lhs.surface < rhs.surface

/-- The comparison of the sort. -/
def PrefixMatch.Before (lhs rhs : PrefixMatch) : Prop := betterMatch rhs lhs = false

instance : DecidableRel PrefixMatch.Before := fun _ _ => inferInstanceAs (Decidable (_ = false))

section Readers

variable (exp : Double → Double)

/-- **`Score`.** -/
def Store.score (s : Store) (reading surface : Bytes) (nowEpochSec : UInt64) : Double :=
  sumDecayedWeight exp (pairRows s.table reading surface) nowEpochSec

/-- What `LookupPrefix` finds for a pair. -/
def matchOf (t : Table) (minScore : Double) (nowEpochSec : UInt64) (pair : Bytes × Bytes) :
    Option PrefixMatch :=
  let rows := pairRows t pair.1 pair.2
  if allForgotten rows then none
  else
    let score := sumDecayedWeight exp rows nowEpochSec
    if minScore.ieeeLe score then some ⟨pair.1, pair.2, score⟩ else none

/-- The readings that `LookupPrefix` visits. -/
def visited (t : Table) (readingPrefix : Bytes) : List Bytes :=
  (readings t).dropWhile (fun reading => reading < readingPrefix)

/-- Those of them that begin with the prefix. -/
def begun (t : Table) (readingPrefix : Bytes) : List Bytes :=
  (visited t readingPrefix).takeWhile (fun reading => readingPrefix.isPrefixOf reading)

/-- **`LookupPrefix`.** -/
def Store.lookupPrefix (s : Store) (readingPrefix : Bytes) (limit : ℕ) (minScore : Double)
    (nowEpochSec : UInt64) : PrefixLookupResult :=
  if readingPrefix = [] ∨ limit = 0 then {}
  else
    let readings := begun s.table readingPrefix
    let pairs := pairsOf s.table readings
    { found := ((pairs.filterMap (matchOf exp s.table minScore nowEpochSec)).insertionSort
        PrefixMatch.Before).take limit
      visitedReadings := readings.length
        + if readings.length < (visited s.table readingPrefix).length then 1 else 0
      scannedRecords := pairs.length }

/-- The better of two readings; of equal ones the first stays. -/
def keepBest (best candidate : Double × Bytes) : Double × Bytes :=
  if best.1.ieeeLt candidate.1 then candidate else best

/-- The score of a reading that has the surface. -/
def candidateOf (t : Table) (surface : Bytes) (nowEpochSec : UInt64) (reading : Bytes) :
    Option (Double × Bytes) :=
  let rows := pairRows t reading surface
  if rows = [] then none else some (sumDecayedWeight exp rows nowEpochSec, reading)

/-- **`ReverseLookup`.** The empty text is no reading. -/
def Store.reverseLookup (s : Store) (surface : Bytes) (nowEpochSec : UInt64) : Bytes :=
  if surface = [] then []
  else
    (((readings s.table).filterMap (candidateOf exp s.table surface nowEpochSec)).foldl keepBest
      (zero, [])).2

end Readers

/-- The keys of a pair in the text: what the line of a row begins with. -/
def pairText (reading surface : Bytes) : Bytes :=
  escapes.escape reading ++ 0x09 :: (escapes.escape surface ++ [0x09])

/-! ## Operations -/

/-- **The operations of a store.** A load takes what the files hold, which is
nothing when they cannot be read, and leaves some flags. -/
inductive StoreOp
  | observeEvent (o : Observation) (alpha : Double) (nowEpochSec : UInt64)
  | forget (reading surface : Bytes)
  | set (reading surface : Bytes) (record : Record)
  | merge (other : Store) (policy : ImportConflictPolicy)
  | prune (exp : Double → Double) (maxRecords : ℕ) (minWeight : Double) (nowEpochSec : UInt64)
  | reset
  | loadText (text : Bytes)
  | load (held : Option Bytes) (dirty saveBlocked preserve : Bool)

/-- What an operation makes of a store. -/
def StoreOp.apply (s : Store) : StoreOp → Store
  | observeEvent o alpha nowEpochSec => s.observeEvent o alpha nowEpochSec
  | forget reading surface => (s.forget reading surface).1
  | set reading surface record => s.set reading surface record
  | merge other policy => (s.merge other policy).1
  | prune exp maxRecords minWeight nowEpochSec => s.prune exp maxRecords minWeight nowEpochSec
  | reset => s.reset
  | loadText text => (s.loadText text).2
  | load held dirty saveBlocked preserve =>
    { table := (held.map (fun text => (parseLines (Bytes.pieces 0x0a text)).2)).getD .empty
      dirty
      saveBlockedByLoadFailure := saveBlocked
      preserveBeforeSave := preserve }

/-- A table with a row of the pair that is not forgotten. -/
def HasLiveRow (t : Table) (reading surface : Bytes) : Prop :=
  ∃ row ∈ pairRows t reading surface, row.2.isForgotten = false

/-- **An operation that puts in a live row of the pair.** -/
def StoreOp.Revives (reading surface : Bytes) : StoreOp → Prop
  | observeEvent o _ _ => o.event ≠ .none ∧ o.reading = reading ∧ o.surface = surface
  | set r s record => r = reading ∧ s = surface ∧ (boundedRecord record).isForgotten = false
  | merge other _ => HasLiveRow other.table reading surface
  | loadText text => HasLiveRow (parseLines (Bytes.pieces 0x0a text)).2 reading surface
  | load held _ _ _ =>
    ∃ text, held = some text ∧ HasLiveRow (parseLines (Bytes.pieces 0x0a text)).2 reading surface
  | forget _ _ => False
  | prune _ _ _ _ => False
  | reset => False

/-- A run. -/
def runOps (s : Store) (ops : List StoreOp) : Store := ops.foldl StoreOp.apply s

/-! ## Pairs that stay forgotten -/

/-- A row with weight zero and no counts. -/
def Record.Erased (rec : Record) : Prop :=
  rec.isForgotten = true ∧ ∃ negative, rec.weight = .finite (.zero negative)

/-- **Every row of the pair is erased.** -/
abbrev Gone (t : Table) (reading surface : Bytes) : Prop :=
  OrderedMap.Holds (fun key rec => key.ofPair reading surface = true → rec.Erased) t

/-- The rows of a pair are those of its keys. -/
theorem mem_pairRows {t : Table} {reading surface : Bytes} {row : Key × Record} :
    row ∈ pairRows t reading surface
      ↔ t.find? row.1 = some row.2 ∧ row.1.ofPair reading surface = true := by
  unfold pairRows
  rw [List.mem_filter, OrderedMap.find?_eq_some_iff]

/-- Zero is not less than itself. -/
theorem zero_not_lt : zero.ieeeLt zero = false :=
  Bool.eq_false_iff.mpr (fun h => lt_irrefl _ (Double.ieeeLt_iff.mp h).2.2)

/-- What starts from scratch is erased. -/
theorem erased_scratch (lastUpdatedEpochSec : UInt64) :
    Record.Erased { lastUpdatedEpochSec } := by
  refine ⟨?_, false, rfl⟩
  unfold Record.isForgotten
  have hzero : zero.ieeeLe zero = true :=
    Double.ieeeLe_iff.mpr ⟨Double.noConfusion, Double.noConfusion, le_refl _⟩
  simp [hzero]

/-- A forgotten row with a weight that is not negative is erased. -/
theorem erased_of_isForgotten {rec : Record} (h : rec.isForgotten = true)
    (hweight : rec.weight.NonNeg) : rec.Erased := by
  refine ⟨h, ?_⟩
  unfold Record.isForgotten at h
  simp only [Bool.and_eq_true, decide_eq_true_eq] at h
  have hle := h.1.1.1
  rcases hweight with ⟨b, hb, hpos⟩ | hb
  · rw [hb, Double.ieeeLe_iff] at hle
    have hrank : b.toRat ≤ 0 := by
      have := hle.2.2
      simpa [Double.rank, zero, Binary64.toRat, Binary64.zero] using this
    obtain ⟨negative, magnitude, hrep⟩ := b
    have hmagnitude : magnitude = 0 := by
      unfold Binary64.toRat at hpos hrank
      dsimp only at hpos hrank
      split at hpos
      · rw [if_pos ‹_›] at hrank
        exact le_antisymm (by linarith) hrep.nonneg
      · rw [if_neg ‹_›] at hrank
        exact le_antisymm hrank hpos
    subst hmagnitude
    exact ⟨negative, hb⟩
  · rw [hb] at hle
    cases hle

/-- **After `Forget` the rows of the pair are erased**, and no others. -/
theorem gone_forget {s : Store} {reading surface : Bytes} :
    Gone (s.forget reading surface).1.table reading surface := by
  unfold Store.forget
  by_cases hrows : pairRows s.table reading surface = []
  · rw [if_pos hrows]
    intro key rec hfound hpair
    have hmem : (key, rec) ∈ pairRows s.table reading surface := mem_pairRows.mpr ⟨hfound, hpair⟩
    rw [hrows] at hmem
    cases hmem
  · rw [if_neg hrows]
    intro key rec hfound hpair
    rw [OrderedMap.find?_mapValues] at hfound
    obtain ⟨w, -, rfl⟩ := Option.map_eq_some_iff.mp hfound
    rw [if_pos hpair]
    exact erased_scratch _

/-- The weights of the rows of a text are not negative. -/
theorem nonNeg_of_parseFiniteNonNegativeDouble {token : Bytes} {weight : Double}
    (h : parseFiniteNonNegativeDouble token = some weight) : weight.NonNeg := by
  unfold parseFiniteNonNegativeDouble at h
  simp only [Option.bind_eq_bind, Option.bind_eq_some_iff] at h
  obtain ⟨b, -, h⟩ := h
  split at h
  · cases h
  · rename_i hlt
    rw [← Option.some.inj h]
    exact nonNeg_of_not_lt rfl (by simpa using hlt)

/-- So are those of the older formats. -/
theorem nonNeg_of_parseLegacyRow {escapedFields : Bool} {line : Bytes} {row : Key × Record}
    (h : parseLegacyRow escapedFields line = some row) : row.2.weight.NonNeg := by
  unfold parseLegacyRow at h
  obtain ⟨fields, -, h⟩ := Option.bind_eq_some_iff.mp h
  unfold legacyRowOfFields at h
  split at h
  · simp only [Option.bind_eq_bind, Option.bind_eq_some_iff] at h
    obtain ⟨record, hrecord, h⟩ := h
    have hnonNeg : record.weight.NonNeg := by
      unfold parseRecordValues at hrecord
      simp only [Option.bind_eq_bind, Option.bind_eq_some_iff] at hrecord
      obtain ⟨_, -, _, -, hrecord⟩ := hrecord
      split at hrecord
      · cases hrecord
      · simp only [Option.bind_eq_some_iff] at hrecord
        obtain ⟨weight, hweight, _, -, hrecord⟩ := hrecord
        rw [← Option.some.inj hrecord]
        exact nonNeg_of_parseFiniteNonNegativeDouble hweight
    have hkeeps : ∀ rec : Record, (fillMigratedCounts rec).weight = rec.weight := by
      intro rec
      unfold fillMigratedCounts
      split <;> rfl
    rw [← Option.some.inj h]
    show (fillMigratedCounts _).weight.NonNeg
    rw [hkeeps]
    exact (isWeight_min hnonNeg).1
  · cases h

/-- **The weights of a text are not negative**, whatever its format. -/
theorem nonNeg_parseLines (lines : List Bytes) :
    OrderedMap.Holds (fun (_ : Key) (rec : Record) => rec.weight.NonNeg) (parseLines lines).2 := by
  have hfold : ∀ (parseRow : Bytes → Option (Key × Record)),
      (∀ line row, parseRow line = some row → row.2.weight.NonNeg) →
      ∀ (lines : List Bytes) (acc : ℕ × Table),
        OrderedMap.Holds (fun (_ : Key) (rec : Record) => rec.weight.NonNeg) acc.2 →
        OrderedMap.Holds (fun (_ : Key) (rec : Record) => rec.weight.NonNeg)
          (lines.foldl (parseLine parseRow) acc).2 := by
    intro parseRow hparse lines
    induction lines with
    | nil => exact fun acc hacc => hacc
    | cons line lines ih =>
      intro acc hacc
      refine ih _ ?_
      unfold parseLine
      split
      · exact hacc
      · split
        · exact hacc
        · rename_i row hrow
          exact hacc.emplace (hparse line row hrow)
  cases lines with
  | nil => exact OrderedMap.holds_empty
  | cons first lines =>
    rw [parseLines]
    by_cases hv2 : first = v2Header
    · rw [if_pos hv2]
      exact hfold _ (fun line row h => (filed_of_parseV2Row h).weight.1) _ _ OrderedMap.holds_empty
    rw [if_neg hv2]
    by_cases hescaped : first = escapedTsvHeader
    · rw [if_pos hescaped]
      exact hfold _ (fun line row h => nonNeg_of_parseLegacyRow h) _ _ OrderedMap.holds_empty
    · rw [if_neg hescaped]
      exact hfold _ (fun line row h => nonNeg_of_parseLegacyRow h) _ _ OrderedMap.holds_empty

/-- A merge of rows that are forgotten for the pair leaves it alone. -/
theorem gone_foldl_mergeRow {reading surface : Bytes} (policy : ImportConflictPolicy)
    {rows : List (Key × Record)}
    (hrows : ∀ row ∈ rows, row.1.ofPair reading surface = true → row.2.isForgotten = true)
    {acc : Table × ImportCounts} (h : Gone acc.1 reading surface) :
    Gone (rows.foldl (mergeRow policy) acc).1 reading surface := by
  induction rows generalizing acc with
  | nil => exact h
  | cons row rows ih =>
    refine ih (fun r hr => hrows r (List.mem_cons_of_mem _ hr)) ?_
    have hrow := hrows row List.mem_cons_self
    unfold mergeRow
    dsimp only
    by_cases hforgotten : row.2.isForgotten = true
    · rw [if_pos hforgotten]
      exact h
    · rw [if_neg hforgotten]
      have hother : ∀ rec : Record, row.1.ofPair reading surface = true → rec.Erased :=
        fun _ hpair => absurd (hrow hpair) hforgotten
      split
      · exact h.assign (hother _)
      · cases policy with
        | merge => exact h.assign (hother _)
        | overwrite => exact h.assign (hother _)
        | keepBoth => exact h

/-- A text without a live row of the pair. -/
theorem gone_parseLines {reading surface text : Bytes}
    (h : ¬ HasLiveRow (parseLines (Bytes.pieces 0x0a text)).2 reading surface) :
    Gone (parseLines (Bytes.pieces 0x0a text)).2 reading surface := by
  intro key rec hfound hpair
  refine erased_of_isForgotten ?_ (nonNeg_parseLines _ key rec hfound)
  by_contra hlive
  exact h ⟨(key, rec), mem_pairRows.mpr ⟨hfound, hpair⟩, by simpa using hlive⟩

/-- **One operation** leaves the pair forgotten, unless it puts in a live row of
it. -/
theorem gone_apply {s : Store} {reading surface : Bytes} (h : Gone s.table reading surface) {op : StoreOp}
    (hop : ¬ op.Revives reading surface) : Gone (op.apply s).table reading surface := by
  cases op with
  | observeEvent o alpha nowEpochSec =>
    show Gone (s.observeEvent o alpha nowEpochSec).table reading surface
    unfold Store.observeEvent
    by_cases hnone : o.event = .none
    · rw [if_pos hnone]
      exact h
    · rw [if_neg hnone]
      refine OrderedMap.Holds.assign h (fun hpair => absurd ?_ hop)
      have hpair : o.reading = reading ∧ o.surface = surface := of_decide_eq_true hpair
      exact ⟨hnone, hpair⟩
  | forget r s' =>
    show Gone (s.forget r s').1.table reading surface
    unfold Store.forget
    split
    · exact h
    · refine OrderedMap.Holds.mapValues h (fun key rec hrec hpair => ?_)
      split
      · exact erased_scratch _
      · exact hrec hpair
  | set r s' record =>
    show Gone (s.set r s' record).table reading surface
    unfold Store.set
    split
    · exact h
    · refine OrderedMap.Holds.assign (OrderedMap.Holds.filter h _) (fun hpair => ?_)
      have hpair : r = reading ∧ s' = surface := of_decide_eq_true hpair
      refine erased_of_isForgotten ?_ (isWeight_boundedWeight record.weight).1
      by_contra hlive
      exact hop ⟨hpair.1, hpair.2, by simpa using hlive⟩
  | merge other policy =>
    refine gone_foldl_mergeRow policy (fun row hrow hpair => ?_) h
    by_contra hlive
    refine hop ⟨row, mem_pairRows.mpr ⟨?_, hpair⟩, by simpa using hlive⟩
    exact (OrderedMap.find?_eq_some_iff _).mpr hrow
  | prune exp maxRecords minWeight nowEpochSec =>
    show Gone (s.prune exp maxRecords minWeight nowEpochSec).table reading surface
    have hkept : Gone (withoutLightPairs exp s.table minWeight nowEpochSec) reading surface := by
      unfold withoutLightPairs
      split
      · exact OrderedMap.Holds.filter h _
      · exact h
    have herase : ∀ (keys : List Key) (t : Table), Gone t reading surface →
        Gone (keys.foldl OrderedMap.erase t) reading surface := by
      intro keys
      induction keys with
      | nil => exact fun t ht => ht
      | cons key keys ih => exact fun t ht => ih _ (OrderedMap.Holds.erase ht key)
    unfold Store.prune
    dsimp only
    split
    · exact herase _ _ hkept
    · exact hkept
  | reset => exact OrderedMap.holds_empty
  | loadText text => exact gone_parseLines hop
  | load held dirty saveBlocked preserve =>
    cases held with
    | none => exact OrderedMap.holds_empty
    | some text => exact gone_parseLines (fun hlive => hop ⟨text, rfl, hlive⟩)

/-- **A run** leaves the pair forgotten. -/
theorem gone_run {s : Store} {reading surface : Bytes} (h : Gone s.table reading surface)
    {ops : List StoreOp} (hops : ∀ op ∈ ops, ¬ op.Revives reading surface) :
    Gone (runOps s ops).table reading surface := by
  induction ops generalizing s with
  | nil => exact h
  | cons op ops ih =>
    exact ih (gone_apply h (hops op List.mem_cons_self))
      (fun o ho => hops o (List.mem_cons_of_mem _ ho))

/-! ## The readers of a forgotten pair -/

/-- **What the exponential function is relied on for**: of a number that is not
positive it is finite. -/
def IsExponential (exp : Double → Double) : Prop :=
  ∀ x : Double, x.neg.NonNeg → ∃ b, exp x = .finite b

/-- A number that is not positive is not rounded to a positive value. -/
theorem nonNeg_neg_round (negative : Bool) {x : ℚ} (hx : x ≤ 0) :
    (Double.round negative x).neg.NonNeg := by
  unfold Double.round
  split
  · rename_i h
    have hlt : x < 0 := lt_of_le_of_ne hx (abs_pos.mp h.1)
    refine Or.inl ⟨_, rfl, ?_⟩
    rw [decide_eq_true hlt]
    exact (representable_nearest h.1 h.2).nonneg
  · split
    · refine Or.inl ⟨_, rfl, ?_⟩
      unfold Binary64.toRat Binary64.zero
      split <;> simp
    · rename_i hzero
      rw [decide_eq_true (lt_of_le_of_ne hx hzero)]
      exact Or.inr rfl

/-- Days that have elapsed are not negative. -/
theorem nonNeg_elapsedDays (lastUpdatedEpochSec nowEpochSec : UInt64) :
    (elapsedDays lastUpdatedEpochSec nowEpochSec).NonNeg := by
  have hseconds : (if lastUpdatedEpochSec ≤ nowEpochSec then
      Double.round false (nowEpochSec - lastUpdatedEpochSec).toNat else zero).NonNeg := by
    split
    · exact Double.nonNeg_round _ (Nat.cast_nonneg _)
    · exact isWeight_zero.1
  have hday : Double.round false 86400 = .finite (.ofInt 86400 (by norm_num)) := by decide +kernel
  unfold elapsedDays
  dsimp only
  rw [hday]
  rcases hseconds with ⟨b, hb, hpos⟩ | hb
  · rw [hb, Double.div, if_neg (by simp [Binary64.ofInt]), Binary64.toRat_ofInt]
    exact Double.nonNeg_round _ (div_nonneg hpos (by norm_num))
  · rw [hb]
    exact Or.inr rfl

/-- The exponent of the recency is not positive. -/
theorem exists_legacyRecency {exp : Double → Double} (hexp : IsExponential exp)
    (lastUpdatedEpochSec nowEpochSec : UInt64) :
    ∃ b, legacyRecency exp lastUpdatedEpochSec nowEpochSec = .finite b := by
  refine hexp _ ?_
  have hdays := nonNeg_elapsedDays lastUpdatedEpochSec nowEpochSec
  have hrate : zero.ieeeLt (Double.round false (15 / 100)) = true := by decide +kernel
  have hfinite : (Double.round false (15 / 100)).isFinite = true := by decide +kernel
  generalize Double.round false (15 / 100) = rate at hrate hfinite ⊢
  cases rate with
  | infinity negative => cases hfinite
  | nan => cases hfinite
  | finite rate =>
    have hpos : 0 < rate.toRat := of_decide_eq_true hrate
    have hneg : Binary64.toRat ⟨!rate.negative, rate.magnitude, rate.representable⟩ = -rate.toRat := by
      unfold Binary64.toRat
      cases rate.negative <;> simp
    have hmagnitude : rate.magnitude ≠ 0 := by
      intro hzero
      unfold Binary64.toRat at hpos
      rw [hzero] at hpos
      split at hpos <;> simp at hpos
    have hsign : rate.negative = false := by
      by_contra hnegative
      rw [Bool.not_eq_false] at hnegative
      unfold Binary64.toRat at hpos
      rw [if_pos hnegative] at hpos
      exact absurd rate.representable.nonneg (not_le.mpr (by linarith))
    rcases hdays with ⟨d, hd, hdpos⟩ | hd
    · rw [hd]
      refine nonNeg_neg_round _ ?_
      rw [hneg]
      exact mul_nonpos_of_nonpos_of_nonneg (by linarith) hdpos
    · rw [hd]
      show Double.NonNeg (Double.neg (if rate.magnitude = 0 then _ else _))
      rw [if_neg hmagnitude, hsign]
      exact Or.inr rfl

/-- A weight of zero stays zero. -/
theorem decayedWeight_erased {exp : Double → Double} (hexp : IsExponential exp) {rec : Record}
    (h : rec.Erased) (nowEpochSec : UInt64) :
    ∃ negative, decayedWeight exp rec nowEpochSec = .finite (.zero negative) := by
  obtain ⟨-, negative, hweight⟩ := h
  obtain ⟨b, hb⟩ := exists_legacyRecency hexp rec.lastUpdatedEpochSec nowEpochSec
  have hzero : (Binary64.zero negative).toRat = 0 := by
    unfold Binary64.toRat Binary64.zero
    split <;> simp
  refine ⟨negative != b.negative, ?_⟩
  unfold decayedWeight
  rw [hweight, hb, Double.mul, hzero, zero_mul]
  simp [Double.round, Binary64.zero]

/-- **Erased rows weigh nothing.** -/
theorem sumDecayedWeight_erased {exp : Double → Double} (hexp : IsExponential exp)
    {rows : List (Key × Record)} (h : ∀ row ∈ rows, row.2.Erased) (nowEpochSec : UInt64) :
    sumDecayedWeight exp rows nowEpochSec = zero := by
  unfold sumDecayedWeight
  induction rows with
  | nil => rfl
  | cons row rows ih =>
    obtain ⟨negative, hweight⟩ := decayedWeight_erased hexp (h row List.mem_cons_self) nowEpochSec
    have hadd : zero.add (.finite (.zero negative)) = zero := by
      cases negative <;> decide +kernel
    rw [List.foldl_cons, hweight, hadd]
    exact ih (fun r hr => h r (List.mem_cons_of_mem _ hr))

section Gone

variable {s : Store} {reading surface : Bytes} (h : Gone s.table reading surface)

/-- The rows of the pair. -/
theorem Gone.rows {t : Table} (h : Gone t reading surface) :
    ∀ row ∈ pairRows t reading surface, row.2.Erased := by
  intro row hrow
  obtain ⟨hfound, hpair⟩ := mem_pairRows.mp hrow
  exact h row.1 row.2 hfound hpair

include h

/-- `Score` of the pair is zero. -/
theorem score_gone {exp : Double → Double} (hexp : IsExponential exp) (nowEpochSec : UInt64) :
    s.score exp reading surface nowEpochSec = zero :=
  sumDecayedWeight_erased hexp h.rows nowEpochSec

/-- `LookupPrefix` finds nothing for the pair. -/
theorem matchOf_gone (exp : Double → Double) (minScore : Double) (nowEpochSec : UInt64) :
    matchOf exp s.table minScore nowEpochSec (reading, surface) = none := by
  have hall : allForgotten (pairRows s.table reading surface) = true :=
    List.all_eq_true.mpr (fun row hrow => (h.rows row hrow).1)
  unfold matchOf
  rw [if_pos hall]

/-- `Aggregates` lists nothing for the pair. -/
theorem aggregateOf_gone : aggregateOf s.table (reading, surface) = none := by
  have hfold : ∀ (rows : List (Key × Record)) (a : Aggregate), (∀ row ∈ rows, row.2.Erased) →
      rows.foldl Aggregate.addRow a = a := by
    intro rows
    induction rows with
    | nil => exact fun a _ => rfl
    | cons row rows ih =>
      intro a hrows
      have hrow : a.addRow row = a := if_pos (hrows row List.mem_cons_self).1
      rw [List.foldl_cons, hrow]
      exact ih a (fun r hr => hrows r (List.mem_cons_of_mem _ hr))
  unfold aggregateOf
  dsimp only
  rw [hfold _ _ h.rows]
  exact if_neg (by simp [Aggregate.isListed, zero_not_lt])

end Gone

/-! ### `ReverseLookup` -/

/-- The best candidate is one that beats the first value, or there is none. -/
theorem foldl_keepBest (best : Double × Bytes) (candidates : List (Double × Bytes)) :
    candidates.foldl keepBest best = best
      ∨ candidates.foldl keepBest best ∈ candidates
        ∧ best.1.ieeeLt (candidates.foldl keepBest best).1 = true := by
  induction candidates generalizing best with
  | nil => exact Or.inl rfl
  | cons c candidates ih =>
    rw [List.foldl_cons]
    by_cases hlt : best.1.ieeeLt c.1 = true
    · have hkeep : keepBest best c = c := if_pos hlt
      rw [hkeep]
      rcases ih c with heq | ⟨hmem, hbetter⟩
      · rw [heq]
        exact Or.inr ⟨List.mem_cons_self, hlt⟩
      · refine Or.inr ⟨List.mem_cons_of_mem _ hmem, ?_⟩
        rw [Double.ieeeLt_iff] at hlt hbetter ⊢
        exact ⟨hlt.1, hbetter.2.1, hlt.2.2.trans hbetter.2.2⟩
    · have hkeep : keepBest best c = best := if_neg hlt
      rw [hkeep]
      exact (ih best).imp_right fun h => ⟨List.mem_cons_of_mem _ h.1, h.2⟩

/-- A worse start ends in the same place, unless the better one is never
beaten. -/
theorem foldl_keepBest_of_le {best better : Double × Bytes} (hbest : best.1 ≠ .nan)
    (hbetter : better.1 ≠ .nan) (hle : best.1.rank ≤ better.1.rank)
    (candidates : List (Double × Bytes)) :
    candidates.foldl keepBest better = better
      ∨ candidates.foldl keepBest better = candidates.foldl keepBest best := by
  induction candidates generalizing best with
  | nil => exact Or.inl rfl
  | cons c candidates ih =>
    rw [List.foldl_cons, List.foldl_cons]
    by_cases hlt : better.1.ieeeLt c.1 = true
    · have h := Double.ieeeLt_iff.mp hlt
      have hkeep : keepBest better c = c := if_pos hlt
      have hkeep' : keepBest best c = c :=
        if_pos (Double.ieeeLt_iff.mpr ⟨hbest, h.2.1, hle.trans_lt h.2.2⟩)
      rw [hkeep, hkeep']
      exact Or.inr rfl
    · have hkeep : keepBest better c = better := if_neg hlt
      rw [hkeep]
      by_cases hlt' : best.1.ieeeLt c.1 = true
      · have h := Double.ieeeLt_iff.mp hlt'
        have hkeep' : keepBest best c = c := if_pos hlt'
        rw [hkeep']
        refine ih h.2.1 ?_
        by_contra hnot
        exact hlt (Double.ieeeLt_iff.mpr ⟨hbetter, h.2.1, not_le.mp hnot⟩)
      · have hkeep' : keepBest best c = best := if_neg hlt'
        rw [hkeep']
        exact ih hbest hle

/-- **A candidate that does not win may as well be absent.** -/
theorem foldl_keepBest_without {best : Double × Bytes} {before after : List (Double × Bytes)}
    {c : Double × Bytes} (h : ((before ++ c :: after).foldl keepBest best).2 ≠ c.2) :
    (before ++ c :: after).foldl keepBest best = (before ++ after).foldl keepBest best := by
  rw [List.foldl_append, List.foldl_cons] at h ⊢
  rw [List.foldl_append]
  generalize before.foldl keepBest best = best at h ⊢
  by_cases hlt : best.1.ieeeLt c.1 = true
  · have hkeep : keepBest best c = c := if_pos hlt
    have hnumbers := Double.ieeeLt_iff.mp hlt
    rw [hkeep] at h ⊢
    rcases foldl_keepBest_of_le hnumbers.1 hnumbers.2.1 hnumbers.2.2.le after with heq | heq
    · rw [heq] at h
      exact absurd rfl h
    · exact heq
  · have hkeep : keepBest best c = best := if_neg hlt
    rw [hkeep]

/-- A candidate of score zero may as well be absent. -/
theorem foldl_keepBest_zero (before after : List (Double × Bytes)) (reading : Bytes) :
    (before ++ (zero, reading) :: after).foldl keepBest (zero, [])
      = (before ++ after).foldl keepBest (zero, []) := by
  have hbest : (before.foldl keepBest (zero, [])).1.ieeeLt zero = false := by
    rcases foldl_keepBest (zero, []) before with heq | ⟨-, hlt⟩
    · rw [heq]
      exact zero_not_lt
    · by_contra hneg
      rw [Bool.not_eq_false] at hneg
      have h := Double.ieeeLt_iff.mp hlt
      have h' := Double.ieeeLt_iff.mp hneg
      exact lt_irrefl _ (h.2.2.trans h'.2.2)
  have hkeep : keepBest (before.foldl keepBest (zero, [])) (zero, reading)
      = before.foldl keepBest (zero, []) := if_neg (by rw [hbest]; exact Bool.false_ne_true)
  rw [List.foldl_append, List.foldl_cons, hkeep, List.foldl_append]

/-- A candidate is a reading with its score. -/
theorem candidateOf_eq_some {exp : Double → Double} {t : Table} {surface : Bytes}
    {nowEpochSec : UInt64} {reading : Bytes} {candidate : Double × Bytes}
    (h : candidateOf exp t surface nowEpochSec reading = some candidate) :
    candidate = (sumDecayedWeight exp (pairRows t reading surface) nowEpochSec, reading) := by
  unfold candidateOf at h
  dsimp only at h
  split at h
  · cases h
  · exact (Option.some.inj h).symm

/-- `ReverseLookup` does not name the reading of the pair. -/
theorem reverseLookup_gone {s : Store} {reading surface : Bytes}
    (h : Gone s.table reading surface) {exp : Double → Double} (hexp : IsExponential exp)
    (nowEpochSec : UInt64) (hnamed : s.reverseLookup exp surface nowEpochSec = reading) :
    reading = [] := by
  unfold Store.reverseLookup at hnamed
  split at hnamed
  · exact hnamed.symm
  · rcases foldl_keepBest (zero, []) ((readings s.table).filterMap
      (candidateOf exp s.table surface nowEpochSec)) with heq | ⟨hmem, hlt⟩
    · rw [heq] at hnamed
      exact hnamed.symm
    · -- the winner beats zero, and the pair does not
      obtain ⟨r, -, hr⟩ := List.mem_filterMap.mp hmem
      have hwinner := candidateOf_eq_some hr
      rw [hwinner] at hnamed hlt
      obtain rfl : r = reading := hnamed
      rw [sumDecayedWeight_erased hexp h.rows nowEpochSec, zero_not_lt] at hlt
      cases hlt

/-! ### `SerializeText` -/

/-- The lines of the rows in the text. -/
def rowLines (t : Table) : List Bytes := (serializedRows t).map rowText

/-- What begins with the same separated fields. -/
theorem append_cons_prefix {c : UInt8} {a b x y : Bytes} (ha : c ∉ a) (hb : c ∉ b) :
    a ++ c :: x <+: b ++ c :: y ↔ a = b ∧ x <+: y := by
  induction a generalizing b with
  | nil =>
    cases b with
    | nil => simp
    | cons d b =>
      have hne : c ≠ d := fun heq => hb (heq ▸ List.mem_cons_self)
      simp [hne]
  | cons e a ih =>
    have hae : c ≠ e := fun heq => ha (heq ▸ List.mem_cons_self)
    cases b with
    | nil => simp [hae.symm]
    | cons d b =>
      rw [List.cons_append, List.cons_append, List.cons_prefix_cons,
        ih (fun h => ha (List.mem_cons_of_mem _ h)) (fun h => hb (List.mem_cons_of_mem _ h)),
        List.cons.injEq, and_assoc]

/-- **A line begins with the keys of its own pair only.** -/
theorem isPrefixOf_rowText (reading surface : Bytes) (key : Key) (rec : Record) :
    (pairText reading surface).isPrefixOf (rowText (serializedKey key, rec))
      = key.ofPair reading surface := by
  have hinjective : ∀ {a b : Bytes}, escapes.escape a = escapes.escape b ↔ b = a := by
    intro a b
    refine ⟨fun h => ?_, fun h => h ▸ rfl⟩
    rw [← escapes.unescape_escape a, h, escapes.unescape_escape]
  have hline : rowText (serializedKey key, rec) = escapes.escape key.reading
      ++ 0x09 :: (escapes.escape key.surface ++ 0x09 :: [0x09].intercalate
        (formatWeight rec.weight :: (fieldsOf key rec).drop 3)) := by
    rw [rowText_serializedKey]
    simp [fieldsOf, List.intercalate]
  rw [Bool.eq_iff_iff, List.isPrefixOf_iff_prefix, hline, pairText,
    append_cons_prefix (not_mem_escape reading).1 (not_mem_escape key.reading).1,
    append_cons_prefix (not_mem_escape surface).1 (not_mem_escape key.surface).1, hinjective,
    hinjective]
  simp [Key.ofPair]

/-- **`SerializeText` writes no line of the pair.** -/
theorem rowLines_gone {t : Table} {reading surface : Bytes} (h : Gone t reading surface) :
    ∀ line ∈ rowLines t, ¬ pairText reading surface <+: line := by
  intro line hline hbegins
  obtain ⟨row, hrow, rfl⟩ := List.mem_map.mp hline
  unfold serializedRows at hrow
  obtain ⟨e, he, rfl⟩ := List.mem_map.mp ((List.mem_insertionSort _).mp hrow)
  obtain ⟨hmem, hlive⟩ := List.mem_filter.mp he
  rw [← List.isPrefixOf_iff_prefix, isPrefixOf_rowText] at hbegins
  have herased := h e.1 e.2 ((OrderedMap.find?_eq_some_iff _).mpr hmem) hbegins
  rw [herased.1] at hlive
  cases hlive

/-! ## What `Forget` leaves to the other pairs -/

/-- A row after `Forget`. -/
def forgetRow (reading surface : Bytes) (row : Key × Record) : Key × Record :=
  (row.1, if row.1.ofPair reading surface then { lastUpdatedEpochSec := row.2.lastUpdatedEpochSec }
    else row.2)

/-- **The rows after `Forget`.** -/
theorem entries_forget (s : Store) (reading surface : Bytes) :
    (s.forget reading surface).1.table.entries = s.table.entries.map (forgetRow reading surface) := by
  unfold Store.forget
  by_cases hrows : pairRows s.table reading surface = []
  · rw [if_pos hrows]
    have hnone : ∀ row ∈ s.table.entries, forgetRow reading surface row = row := by
      intro row hrow
      have hpair := List.filter_eq_nil_iff.mp hrows row hrow
      unfold forgetRow
      rw [if_neg hpair]
    exact ((List.map_congr_left hnone).trans (List.map_id _)).symm
  · rw [if_neg hrows]
    rfl

variable (s : Store) (reading surface : Bytes)

/-- The keys stay, and so do the readings. -/
theorem readings_forget : readings (s.forget reading surface).1.table = readings s.table := by
  unfold readings
  rw [entries_forget, List.map_map]
  rfl

/-- So do the surfaces of each reading. -/
theorem surfaces_forget (r : Bytes) :
    surfaces (s.forget reading surface).1.table r = surfaces s.table r := by
  unfold surfaces
  rw [entries_forget, List.filter_map, List.map_map]
  rfl

/-- So do the pairs. -/
theorem pairsOf_forget (rs : List Bytes) :
    pairsOf (s.forget reading surface).1.table rs = pairsOf s.table rs := by
  unfold pairsOf
  simp only [surfaces_forget]

/-- **The rows of another pair stay.** -/
theorem pairRows_forget {pair : Bytes × Bytes} (hne : pair ≠ (reading, surface)) :
    pairRows (s.forget reading surface).1.table pair.1 pair.2 = pairRows s.table pair.1 pair.2 := by
  unfold pairRows
  rw [entries_forget, List.filter_map]
  have hsame : ∀ row ∈ s.table.entries.filter (fun e => e.1.ofPair pair.1 pair.2),
      forgetRow reading surface row = row := by
    intro row hrow
    have hpair : row.1.reading = pair.1 ∧ row.1.surface = pair.2 :=
      of_decide_eq_true (List.mem_filter.mp hrow).2
    have hother : row.1.ofPair reading surface = false := by
      refine decide_eq_false (fun h => hne ?_)
      rw [← h.1, ← h.2, hpair.1, hpair.2]
    unfold forgetRow
    rw [hother]
    rfl
  exact (List.map_congr_left hsame).trans (List.map_id _)

/-- A search that finds nothing for one element finds the same for all others. -/
theorem filterMap_without {α β : Type} {f g : α → Option β} {k : β → α} [DecidableEq α]
    {x : α} {l : List α} (hx : g x = none) (hsame : ∀ a, a ≠ x → g a = f a)
    (hkey : ∀ a b, f a = some b → k b = a) :
    l.filterMap g = (l.filterMap f).filter (fun b => k b ≠ x) := by
  induction l with
  | nil => rfl
  | cons a l ih =>
    by_cases ha : a = x
    · subst ha
      rw [List.filterMap_cons_none hx, ih]
      cases hf : f a with
      | none => rw [List.filterMap_cons_none hf]
      | some b => rw [List.filterMap_cons_some hf, List.filter_cons, if_neg (by simp [hkey a b hf])]
    · cases hf : f a with
      | none =>
        rw [List.filterMap_cons_none hf, List.filterMap_cons_none ((hsame a ha).trans hf), ih]
      | some b =>
        rw [List.filterMap_cons_some hf, List.filterMap_cons_some ((hsame a ha).trans hf),
          List.filter_cons, if_pos (by simp [hkey a b hf, ha]), ih]

/-! ### `Aggregates` -/

/-- The pair of an aggregate. -/
def Aggregate.pair (aggregate : Aggregate) : Bytes × Bytes := (aggregate.reading, aggregate.surface)

/-- An aggregate is that of its pair. -/
theorem pair_aggregateOf {t : Table} {pair : Bytes × Bytes} {aggregate : Aggregate}
    (h : aggregateOf t pair = some aggregate) : aggregate.pair = pair := by
  have hrow : ∀ (a : Aggregate) (row : Key × Record), (a.addRow row).pair = a.pair := by
    intro a row
    unfold Aggregate.addRow
    split <;> rfl
  have hfold : ∀ (rows : List (Key × Record)) (a : Aggregate),
      (rows.foldl Aggregate.addRow a).pair = a.pair := by
    intro rows
    induction rows with
    | nil => exact fun a => rfl
    | cons row rows ih => exact fun a => (ih _).trans (hrow a row)
  unfold aggregateOf at h
  dsimp only at h
  split at h
  · rw [← Option.some.inj h]
    exact hfold _ _
  · cases h

/-- **The aggregates of the other pairs stay.** -/
theorem aggregates_forget :
    (s.forget reading surface).1.aggregates
      = s.aggregates.filter (fun a => a.pair ≠ (reading, surface)) := by
  unfold Store.aggregates
  rw [readings_forget, pairsOf_forget]
  refine filterMap_without (aggregateOf_gone gone_forget) (fun pair hne => ?_)
    (fun pair a h => pair_aggregateOf h)
  unfold aggregateOf
  rw [pairRows_forget s reading surface hne]

/-! ### `LookupPrefix` -/

/-- The pair of a match. -/
def PrefixMatch.pair (m : PrefixMatch) : Bytes × Bytes := (m.reading, m.surface)

/-- A match has a score that can be compared, and is that of its pair. -/
theorem of_matchOf {exp : Double → Double} {t : Table} {minScore : Double} {nowEpochSec : UInt64}
    {pair : Bytes × Bytes} {m : PrefixMatch} (h : matchOf exp t minScore nowEpochSec pair = some m) :
    m.pair = pair ∧ m.score ≠ .nan := by
  unfold matchOf at h
  dsimp only at h
  split at h
  · cases h
  · split at h
    · rename_i hscore
      rw [← Option.some.inj h]
      exact ⟨rfl, (Double.ieeeLe_iff.mp hscore).2.1⟩
    · cases h

/-- Where a match stands among the others. -/
def PrefixMatch.place (m : PrefixMatch) : (WithBot (WithTop ℚ))ᵒᵈ ×ₗ Bytes ×ₗ Bytes :=
  toLex (OrderDual.toDual m.score.rank, toLex (m.reading, m.surface))

/-- **The comparison of the sort is that of the places.** -/
theorem PrefixMatch.before_iff {lhs rhs : PrefixMatch} (hlhs : lhs.score ≠ .nan)
    (hrhs : rhs.score ≠ .nan) : lhs.Before rhs ↔ lhs.place ≤ rhs.place := by
  have hbetter : betterMatch rhs lhs = true ↔ rhs.place < lhs.place := by
    unfold betterMatch PrefixMatch.place
    rw [Prod.Lex.toLex_lt_toLex, Prod.Lex.toLex_lt_toLex, OrderDual.toDual_lt_toDual]
    have heq : rhs.score.ieeeEq lhs.score = true ↔ rhs.score.rank = lhs.score.rank := by
      rw [Double.ieeeEq_iff]
      tauto
    have hlt : lhs.score.ieeeLt rhs.score = true ↔ lhs.score.rank < rhs.score.rank := by
      rw [Double.ieeeLt_iff]
      tauto
    by_cases hscore : rhs.score.rank = lhs.score.rank
    · rw [heq.mpr hscore]
      by_cases hreading : rhs.reading = lhs.reading
      · simp [hscore, hreading]
      · simp [hscore, hreading]
    · have hne : rhs.score.ieeeEq lhs.score = false := Bool.eq_false_iff.mpr (mt heq.mp hscore)
      simp [hne, hlt, hscore]
  unfold PrefixMatch.Before
  rw [← not_lt, ← hbetter, Bool.not_eq_true]

/-- Each pair is visited once. -/
theorem nodup_pairsOf {t : Table} {rs : List Bytes} (h : rs.Nodup) : (pairsOf t rs).Nodup := by
  unfold pairsOf
  rw [List.nodup_flatMap]
  constructor
  · intro r _
    exact (List.nodup_dedup _).map (fun a b heq => (Prod.mk.inj heq).2)
  · refine h.imp (fun {a b} hne => ?_)
    intro pair ha hb
    obtain ⟨_, -, rfl⟩ := List.mem_map.mp ha
    obtain ⟨_, -, heq⟩ := List.mem_map.mp hb
    exact hne (Prod.mk.inj heq).1.symm

/-- A search finds an element once. -/
theorem length_filterMap_key {α β : Type} [DecidableEq α] {f : α → Option β} {k : β → α}
    {l : List α} (hl : l.Nodup) (hkey : ∀ a b, f a = some b → k b = a) (x : α) :
    ((l.filterMap f).filter (fun b => !decide (k b ≠ x))).length ≤ 1 := by
  have hsub : ((l.filterMap f).map k).Sublist l := by
    clear hl
    induction l with
    | nil => exact List.Sublist.slnil
    | cons a l ih =>
      cases hf : f a with
      | none =>
        rw [List.filterMap_cons_none hf]
        exact ih.cons a
      | some b =>
        rw [List.filterMap_cons_some hf, List.map_cons, hkey a b hf]
        exact ih.cons_cons a
  have hcount := List.nodup_iff_count_le_one.mp (hl.sublist hsub) x
  rw [List.count_eq_length_filter, List.filter_map, List.length_map] at hcount
  refine le_trans (le_of_eq ?_) hcount
  congr 2
  funext b
  by_cases hb : k b = x <;> simp [hb]

/-- **`LookupPrefix` returns what it returned, without the pair**: from one match
more, as many as are wanted. -/
theorem lookupPrefix_forget (exp : Double → Double) (readingPrefix : Bytes) (limit : ℕ)
    (minScore : Double) (nowEpochSec : UInt64) :
    ((s.forget reading surface).1.lookupPrefix exp readingPrefix limit minScore nowEpochSec).found
      = ((s.lookupPrefix exp readingPrefix (limit + 1) minScore nowEpochSec).found.filter
          (fun m => m.pair ≠ (reading, surface))).take limit := by
  unfold Store.lookupPrefix
  by_cases hbare : readingPrefix = [] ∨ limit = 0
  · rw [if_pos hbare]
    rcases hbare with h | h
    · rw [if_pos (Or.inl h)]
      simp
    · subst h
      simp
  · rw [if_neg hbare, if_neg (by tauto)]
    dsimp only
    unfold begun visited
    rw [readings_forget, pairsOf_forget]
    generalize hrs : ((readings s.table).dropWhile _).takeWhile _ = rs
    have hnodup : rs.Nodup := by
      rw [← hrs]
      exact ((List.nodup_dedup _).sublist (List.dropWhile_sublist _)).sublist
        (List.takeWhile_sublist _)
    rw [filterMap_without (f := matchOf exp s.table minScore nowEpochSec) (k := PrefixMatch.pair)
      (matchOf_gone gone_forget exp minScore nowEpochSec)
      (fun pair hne => by unfold matchOf; rw [pairRows_forget s reading surface hne])
      (fun pair m h => (of_matchOf h).1)]
    have hnumber : ∀ m ∈ (pairsOf s.table rs).filterMap (matchOf exp s.table minScore nowEpochSec),
        m.score ≠ .nan := by
      intro m hm
      obtain ⟨pair, -, hpair⟩ := List.mem_filterMap.mp hm
      exact (of_matchOf hpair).2
    rw [← filter_insertionSort]
    · refine take_filter ?_ limit
      rw [((List.perm_insertionSort _ _).filter _).length_eq]
      exact length_filterMap_key (nodup_pairsOf hnodup) (fun pair m h => (of_matchOf h).1) _
    · intro a ha b hb
      rw [PrefixMatch.before_iff (hnumber a ha) (hnumber b hb),
        PrefixMatch.before_iff (hnumber b hb) (hnumber a ha)]
      exact le_total _ _
    · intro a ha b hb c hc
      rw [PrefixMatch.before_iff (hnumber a ha) (hnumber b hb),
        PrefixMatch.before_iff (hnumber b hb) (hnumber c hc),
        PrefixMatch.before_iff (hnumber a ha) (hnumber c hc)]
      exact le_trans

/-! ### `Score` and `ReverseLookup` -/

/-- The score of another pair stays. -/
theorem score_forget (exp : Double → Double) {pair : Bytes × Bytes} (hne : pair ≠ (reading, surface))
    (nowEpochSec : UInt64) :
    (s.forget reading surface).1.score exp pair.1 pair.2 nowEpochSec
      = s.score exp pair.1 pair.2 nowEpochSec := by
  unfold Store.score
  rw [pairRows_forget s reading surface hne]

/-- The score of another reading stays. -/
theorem candidateOf_forget (exp : Double → Double) {r surface' : Bytes}
    (hne : (r, surface') ≠ (reading, surface)) (nowEpochSec : UInt64) :
    candidateOf exp (s.forget reading surface).1.table surface' nowEpochSec r
      = candidateOf exp s.table surface' nowEpochSec r := by
  unfold candidateOf
  rw [pairRows_forget s reading surface hne]

/-- The pair keeps its rows, which weigh nothing. -/
theorem candidateOf_forget_self {exp : Double → Double} (hexp : IsExponential exp)
    (nowEpochSec : UInt64) :
    candidateOf exp (s.forget reading surface).1.table surface nowEpochSec reading
      = (candidateOf exp s.table surface nowEpochSec reading).map (fun _ => (zero, reading)) := by
  have hrows : pairRows (s.forget reading surface).1.table reading surface
      = (pairRows s.table reading surface).map (forgetRow reading surface) := by
    unfold pairRows
    rw [entries_forget, List.filter_map]
    rfl
  unfold candidateOf
  dsimp only
  rw [sumDecayedWeight_erased hexp (Gone.rows gone_forget) nowEpochSec, hrows]
  by_cases hnone : pairRows s.table reading surface = []
  · rw [if_pos hnone, if_pos (by rw [hnone]; rfl)]
    rfl
  · rw [if_neg hnone, if_neg (mt List.map_eq_nil_iff.mp hnone)]
    rfl

/-- **`ReverseLookup` stays**, unless it named the reading of the pair. -/
theorem reverseLookup_forget {exp : Double → Double} (hexp : IsExponential exp) (surface' : Bytes)
    (nowEpochSec : UInt64)
    (hother : surface' ≠ surface ∨ s.reverseLookup exp surface' nowEpochSec ≠ reading) :
    (s.forget reading surface).1.reverseLookup exp surface' nowEpochSec
      = s.reverseLookup exp surface' nowEpochSec := by
  unfold Store.reverseLookup at hother ⊢
  by_cases hempty : surface' = []
  · rw [if_pos hempty, if_pos hempty]
  rw [if_neg hempty] at hother ⊢
  rw [if_neg hempty, readings_forget]
  by_cases hpair : surface' = surface ∧ reading ∈ readings s.table
  · obtain ⟨rfl, hmem⟩ := hpair
    have hother := hother.resolve_left (fun hne => hne rfl)
    obtain ⟨before, after, hsplit⟩ := List.append_of_mem hmem
    have hnodup : (before ++ reading :: after).Nodup := hsplit ▸ List.nodup_dedup _
    have hfresh : ∀ r ∈ before ++ after, (r, surface') ≠ (reading, surface') := by
      intro r hr heq
      have hnot := (List.nodup_middle.mp hnodup)
      exact (List.nodup_cons.mp hnot).1 ((Prod.mk.inj heq).1 ▸ hr)
    have hsame : ∀ rs : List Bytes, (∀ r ∈ rs, r ∈ before ++ after) →
        rs.filterMap (candidateOf exp (s.forget reading surface').1.table surface' nowEpochSec)
          = rs.filterMap (candidateOf exp s.table surface' nowEpochSec) :=
      fun rs hrs => List.filterMap_congr (fun r hr =>
        candidateOf_forget s reading surface' exp (hfresh r (hrs r hr)) nowEpochSec)
    rw [hsplit, List.filterMap_append] at hother ⊢
    rw [List.filterMap_append, hsame before (fun r hr => List.mem_append_left _ hr)]
    have hself := candidateOf_forget_self s reading surface' hexp nowEpochSec
    cases hcandidate : candidateOf exp s.table surface' nowEpochSec reading with
    | none =>
      rw [hcandidate, Option.map_none] at hself
      rw [List.filterMap_cons_none hself, List.filterMap_cons_none hcandidate,
        hsame after (fun r hr => List.mem_append_right _ hr)]
    | some candidate =>
      rw [hcandidate, Option.map_some] at hself
      rw [List.filterMap_cons_some hcandidate] at hother ⊢
      rw [List.filterMap_cons_some hself, hsame after (fun r hr => List.mem_append_right _ hr)]
      have hname : candidate.2 = reading := by rw [candidateOf_eq_some hcandidate]
      rw [foldl_keepBest_zero, foldl_keepBest_without (by rw [hname]; exact hother)]
  · -- the pair is not among the candidates
    have hfresh : ∀ r ∈ readings s.table, (r, surface') ≠ (reading, surface) := by
      intro r hr heq
      obtain ⟨rfl, rfl⟩ := Prod.mk.inj heq
      exact hpair ⟨rfl, hr⟩
    rw [List.filterMap_congr (fun r hr =>
      candidateOf_forget s reading surface exp (hfresh r hr) nowEpochSec)]

/-- **The lines of the other pairs stay.** -/
theorem rowLines_forget :
    rowLines (s.forget reading surface).1.table
      = (rowLines s.table).filter (fun line => !(pairText reading surface).isPrefixOf line) := by
  have hlines : ∀ entries : List (Key × Record),
      ((entries.map (forgetRow reading surface)).filter (fun e => !e.2.isForgotten)).map
          (fun e => (serializedKey e.1, e.2))
        = ((entries.filter (fun e => !e.2.isForgotten)).map
            (fun e => (serializedKey e.1, e.2))).filter
              (fun row => !(pairText reading surface).isPrefixOf (rowText row)) := by
    intro entries
    induction entries with
    | nil => rfl
    | cons row entries ih =>
      rw [List.map_cons, List.filter_cons, List.filter_cons]
      by_cases hpair : row.1.ofPair reading surface = true
      · have hforgotten : (forgetRow reading surface row).2.isForgotten = true := by
          unfold forgetRow
          rw [if_pos hpair]
          exact (erased_scratch _).1
        rw [hforgotten, Bool.not_true, if_neg Bool.false_ne_true, ih]
        split
        · rw [List.map_cons, List.filter_cons, isPrefixOf_rowText, hpair, Bool.not_true,
            if_neg Bool.false_ne_true]
        · rfl
      · have hsame : forgetRow reading surface row = row := by
          unfold forgetRow
          rw [if_neg hpair]
        rw [Bool.not_eq_true] at hpair
        rw [hsame]
        split
        · rw [List.map_cons, List.map_cons, List.filter_cons, isPrefixOf_rowText, hpair,
            Bool.not_false, if_pos rfl, ih]
        · exact ih
  unfold rowLines serializedRows
  rw [entries_forget, hlines, ← filter_insertionSort, List.filter_map]
  · rfl
  · exact fun a _ b _ => le_total _ _
  · exact fun a _ b _ c _ => le_trans

/-! ## The results -/

/-- **No reader shows the pair.** -/
structure Invisible (exp : Double → Double) (s : Store) (reading surface : Bytes) : Prop where
  score : ∀ nowEpochSec, s.score exp reading surface nowEpochSec = zero
  lookupPrefix : ∀ readingPrefix limit minScore nowEpochSec,
    ∀ m ∈ (s.lookupPrefix exp readingPrefix limit minScore nowEpochSec).found,
      m.pair ≠ (reading, surface)
  reverseLookup : ∀ nowEpochSec, s.reverseLookup exp surface nowEpochSec = reading → reading = []
  aggregates : ∀ a ∈ s.aggregates, a.pair ≠ (reading, surface)
  serializeText : ∀ line ∈ rowLines s.table, ¬ pairText reading surface <+: line

/-- **What the readers show of the other pairs**, when a pair leaves. -/
structure OthersStay (exp : Double → Double) (s s' : Store) (reading surface : Bytes) : Prop where
  score : ∀ pair : Bytes × Bytes, pair ≠ (reading, surface) → ∀ nowEpochSec,
    s'.score exp pair.1 pair.2 nowEpochSec = s.score exp pair.1 pair.2 nowEpochSec
  lookupPrefix : ∀ readingPrefix limit minScore nowEpochSec,
    (s'.lookupPrefix exp readingPrefix limit minScore nowEpochSec).found
      = ((s.lookupPrefix exp readingPrefix (limit + 1) minScore nowEpochSec).found.filter
          (fun m => m.pair ≠ (reading, surface))).take limit
  reverseLookup : ∀ surface' nowEpochSec,
    (surface' ≠ surface ∨ s.reverseLookup exp surface' nowEpochSec ≠ reading) →
      s'.reverseLookup exp surface' nowEpochSec = s.reverseLookup exp surface' nowEpochSec
  aggregates : s'.aggregates = s.aggregates.filter (fun a => a.pair ≠ (reading, surface))
  serializeText : rowLines s'.table
    = (rowLines s.table).filter (fun line => !(pairText reading surface).isPrefixOf line)

/-- A pair without live rows is invisible. -/
theorem invisible_of_gone {exp : Double → Double} (hexp : IsExponential exp) {s : Store}
    {reading surface : Bytes} (h : Gone s.table reading surface) :
    Invisible exp s reading surface where
  score := score_gone h hexp
  lookupPrefix := by
    intro readingPrefix limit minScore nowEpochSec m hm hpair
    unfold Store.lookupPrefix at hm
    split at hm
    · cases hm
    · have hm := (List.mem_insertionSort _).mp (List.mem_of_mem_take hm)
      obtain ⟨pair, -, hfound⟩ := List.mem_filterMap.mp hm
      rw [← (of_matchOf hfound).1, hpair, matchOf_gone h] at hfound
      cases hfound
  reverseLookup := reverseLookup_gone h hexp
  aggregates := by
    intro a ha hpair
    obtain ⟨pair, -, hfound⟩ := List.mem_filterMap.mp ha
    rw [← pair_aggregateOf hfound, hpair, aggregateOf_gone h] at hfound
    cases hfound
  serializeText := rowLines_gone h

/-- `Forget` takes the pair away, and leaves the others. -/
theorem othersStay_forget {exp : Double → Double} (hexp : IsExponential exp) (s : Store)
    (reading surface : Bytes) :
    OthersStay exp s (s.forget reading surface).1 reading surface where
  score := fun _ hne nowEpochSec => score_forget s reading surface exp hne nowEpochSec
  lookupPrefix := lookupPrefix_forget s reading surface exp
  reverseLookup := fun surface' nowEpochSec =>
    reverseLookup_forget s reading surface hexp surface' nowEpochSec
  aggregates := aggregates_forget s reading surface
  serializeText := rowLines_forget s reading surface

/-- **A forgotten pair stays invisible** through any run that puts in no live
row of it, and `Forget` leaves the other pairs. -/
theorem forgotten_run {exp : Double → Double} (hexp : IsExponential exp) (s : Store)
    (reading surface : Bytes) (ops : List StoreOp)
    (hops : ∀ op ∈ ops, ¬ op.Revives reading surface) :
    Invisible exp (runOps (s.forget reading surface).1 ops) reading surface
      ∧ OthersStay exp s (s.forget reading surface).1 reading surface :=
  ⟨invisible_of_gone hexp (gone_run gone_forget hops), othersStay_forget hexp s reading surface⟩

/-- The number one. -/
def one : Double := .finite (.ofInt 1 Binary64.natAbs_one_lt)

/-- Two surfaces of a reading, of which the first is used twice. -/
def twoSurfaces : Store :=
  ((({} : Store).observe (utf8 "a") (utf8 "x") one 0).observe (utf8 "a") (utf8 "x") one 0).observe
    (utf8 "a") (utf8 "y") one 0

/-- The first terms of the series of the exponential function. -/
def expSum (y : ℚ) : ℕ → ℚ
  | 0 => 1
  | n + 1 => expSum y n + y ^ (n + 1) / (n + 1).factorial

/-- They are at least one where the number is not negative. -/
theorem one_le_expSum {y : ℚ} (hy : 0 ≤ y) (n : ℕ) : 1 ≤ expSum y n := by
  induction n with
  | zero => exact le_refl _
  | succ n ih =>
    have hterm : 0 ≤ y ^ (n + 1) / (n + 1).factorial := by positivity
    rw [expSum]
    linarith

/-- **The exponential function** of a number that is not positive, by twenty terms at a
1024th of it. -/
def expOfNonPos : Double → Double
  | .finite b => .round false (1 / expSum (|b.toRat| / 1024) 20 ^ 1024)
  | _ => zero

/-- It is finite. -/
theorem isExponential_expOfNonPos : IsExponential expOfNonPos := by
  intro x _
  cases x with
  | finite b =>
    have hsum : 1 ≤ expSum (|b.toRat| / 1024) 20 ^ 1024 :=
      one_le_pow₀ (one_le_expSum (by positivity) 20)
    refine Double.exists_round_eq_finite false (by positivity) ?_
    rw [div_le_one (by linarith)]
    exact hsum
  | infinity negative => exact ⟨_, rfl⟩
  | nan => exact ⟨_, rfl⟩

/-- A pair is forgotten, the other is used again, and the store is pruned. -/
theorem forgotten_run_twoSurfaces :
    Invisible expOfNonPos (runOps (twoSurfaces.forget (utf8 "a") (utf8 "x")).1
        [.observeEvent { reading := utf8 "a", surface := utf8 "y" } one 1,
          .prune expOfNonPos 0 zero 1])
        (utf8 "a") (utf8 "x")
      ∧ OthersStay expOfNonPos twoSurfaces (twoSurfaces.forget (utf8 "a") (utf8 "x")).1
        (utf8 "a") (utf8 "x") := by
  refine forgotten_run isExponential_expOfNonPos _ _ _ _ (fun op hop => ?_)
  rcases List.mem_cons.mp hop with rfl | hop
  · exact fun h => absurd h.2.2 (by decide)
  · rw [List.mem_singleton.mp hop]
    exact id

/-- **A place in a limited list becomes free**: a match of another pair appears
that was not there before. -/
theorem not_lookupPrefix_unchanged :
    ¬ ∀ (exp : Double → Double) (s : Store) (reading surface readingPrefix : Bytes) (limit : ℕ)
      (minScore : Double) (nowEpochSec : UInt64), IsExponential exp →
      (s.forget reading surface).2 = true → ∀ m : PrefixMatch, m.pair ≠ (reading, surface) →
        (m ∈ ((s.forget reading surface).1.lookupPrefix exp readingPrefix limit minScore
            nowEpochSec).found
          ↔ m ∈ (s.lookupPrefix exp readingPrefix limit minScore nowEpochSec).found) := by
  intro h
  have hfound := h (fun _ => one) twoSurfaces (utf8 "a") (utf8 "x") (utf8 "a") 1 zero 0
    (fun _ _ => ⟨_, rfl⟩) (by decide) ⟨utf8 "a", utf8 "y", one⟩ (by decide)
  exact absurd hfound (by decide +kernel)

end AzooKey.Learning.LearningStore

import AzooKey.Core.RomajiKanaConverter
import AzooKey.Lib.Greedy

/-!
# Typing with a custom table is batch conversion

With a custom table the converter decides with only the bytes typed so far:
it waits while a longer rule may still match, and what a rule leaves
unconsumed is looked at again. `GreedyConversion` is what the table means for
a whole text, without typing: at each point the longest key that the rest of
the text starts with prints its output and drops what it consumes, and a byte
that starts no key prints itself.

The two coincide (`convertForCommit_iff_greedy`). The converter is a greedy
rewriter (`customRewriter`) whose waiting rule is `longerPrefix`, and the
one thing to show is that it waits long enough: when no longer rule starts
with the pending bytes, every key that the rest of the text starts with
already lies within them. That `longerPrefix` sees a longer rule whenever
there is one is a fact about the order of byte strings, since it looks at a
single neighbour in the table.
-/

namespace AzooKey.Core

variable {table : CustomRomajiTable}

/-- **The rule of the longest key that the text starts with.** -/
structure IsLongestRule (table : CustomRomajiTable) (input key : Bytes)
    (rule : CustomRomajiRule) : Prop where
  mem : (key, rule) ∈ table.rules.entries
  starts : key <+: input
  longest : ∀ e ∈ table.rules.entries, e.1 <+: input → e.1.length ≤ key.length

/-- **Batch greedy conversion** of a text into what it prints. -/
inductive GreedyConversion (table : CustomRomajiTable) : Bytes → Bytes → Prop
  /-- Nothing is left. -/
  | done : GreedyConversion table [] []
  /-- The longest rule prints its output and drops what it consumes. -/
  | rule {input key output : Bytes} {rule : CustomRomajiRule} :
      IsLongestRule table input key rule →
      GreedyConversion table (input.drop rule.consume) output →
      GreedyConversion table input (rule.output ++ output)
  /-- A byte that starts no key prints itself. -/
  | byte {b : UInt8} {input output : Bytes} :
      (∀ e ∈ table.rules.entries, ¬ e.1 <+: b :: input) →
      GreedyConversion table input output →
      GreedyConversion table (b :: input) (b :: output)

/-! ## The searches -/

/-- A failed search has tried every length. -/
theorem longestMatch_eq_none {α : Type} {find : Bytes → Option α} {pending : Bytes} {n : ℕ}
    (h : longestMatch find pending n = none) {length : ℕ} (hpos : 1 ≤ length)
    (hle : length ≤ n) : find (pending.take length) = none := by
  induction n with
  | zero => omega
  | succ n ih =>
    unfold longestMatch at h
    split at h
    · exact absurd h (by simp)
    · rename_i hfind
      rcases Nat.lt_or_ge n length with hlt | hge
      · rw [show length = n + 1 by omega]; exact hfind
      · exact ih h hge

/-- A search finds the longest length there is. -/
theorem longestMatch_longest {α : Type} {find : Bytes → Option α} {pending : Bytes} {n : ℕ}
    {value : α} {best : ℕ} (h : longestMatch find pending n = some (value, best))
    {length : ℕ} (hlt : best < length) (hle : length ≤ n) :
    find (pending.take length) = none := by
  induction n with
  | zero => omega
  | succ n ih =>
    unfold longestMatch at h
    split at h
    · obtain ⟨-, rfl⟩ := Prod.mk.inj (Option.some.inj h)
      omega
    · rename_i hfind
      rcases Nat.lt_or_ge n length with hn | hn
      · rw [show length = n + 1 by omega]; exact hfind
      · exact ih h hn

/-- A key that the text starts with is the front of the text of its length,
and its length is one the search tries. -/
theorem key_take {e : Bytes × CustomRomajiRule} (he : e ∈ table.rules.entries) {input : Bytes}
    (hpre : e.1 <+: input) :
    table.rules.find? (input.take e.1.length) = some e.2 ∧ 1 ≤ e.1.length
      ∧ e.1.length ≤ min input.length 8 := by
  have hok := table.ruleOk e he
  refine ⟨?_, hok.1.1.trans hok.1.2, le_min hpre.length_le hok.2.1⟩
  rw [← List.prefix_iff_eq_take.mp hpre]
  exact table.rules.find?_eq_some_iff.mpr he

/-- **The best rule is the longest rule.** -/
theorem isLongestRule_of_bestRule {input : Bytes} {rule : CustomRomajiRule}
    (h : bestRule table input = some rule) :
    ∃ key, IsLongestRule table input key rule := by
  obtain ⟨⟨value, length⟩, hm, rfl⟩ := Option.map_eq_some_iff.mp h
  obtain ⟨hpos, hle, hfind⟩ := longestMatch_eq_some hm
  refine ⟨input.take length, AssocList.mem_of_find?_eq_some hfind, List.take_prefix _ _,
    fun e he hpre => ?_⟩
  obtain ⟨hsome, -, hbound⟩ := key_take he hpre
  rw [List.length_take, min_eq_left (hle.trans (min_le_left _ _))]
  by_contra hlt
  rw [longestMatch_longest hm (not_le.mp hlt) hbound] at hsome
  exact absurd hsome (by simp)

/-- Where there is no best rule, no key starts the text. -/
theorem not_prefix_of_bestRule_eq_none {input : Bytes} (h : bestRule table input = none) :
    ∀ e ∈ table.rules.entries, ¬ e.1 <+: input := by
  intro e he hpre
  obtain ⟨hsome, hpos, hbound⟩ := key_take he hpre
  rw [longestMatch_eq_none (Option.map_eq_none_iff.mp h) hpos hbound] at hsome
  exact absurd hsome (by simp)

/-- The longest rule is unique. -/
theorem IsLongestRule.rule_unique {input key key' : Bytes} {rule rule' : CustomRomajiRule}
    (h : IsLongestRule table input key rule) (h' : IsLongestRule table input key' rule') :
    rule = rule' := by
  have hlen : key.length = key'.length :=
    le_antisymm (h'.longest _ h.mem h.starts) (h.longest _ h'.mem h'.starts)
  have hkey : key = key' := (List.prefix_of_prefix_length_le h.starts h'.starts hlen.le).eq_of_length hlen
  subst hkey
  exact Option.some.inj
    ((table.rules.find?_eq_some_iff.mpr h.mem).symm.trans (table.rules.find?_eq_some_iff.mpr h'.mem))

/-- The best rule, characterised. -/
theorem bestRule_eq_some_iff {input : Bytes} {rule : CustomRomajiRule} :
    bestRule table input = some rule ↔ ∃ key, IsLongestRule table input key rule := by
  refine ⟨isLongestRule_of_bestRule, fun ⟨key, h⟩ => ?_⟩
  cases hb : bestRule table input with
  | none => exact absurd h.starts (not_prefix_of_bestRule_eq_none hb _ h.mem)
  | some rule' =>
    obtain ⟨key', h'⟩ := isLongestRule_of_bestRule hb
    rw [h'.rule_unique h]

/-- **One neighbour in the table tells whether a longer rule exists.** -/
theorem longerPrefix_iff {pending : Bytes} :
    longerPrefix table pending = true
      ↔ ∃ e ∈ table.rules.entries, pending <+: e.1 ∧ pending ≠ e.1 := by
  unfold longerPrefix
  constructor
  · intro h
    split at h
    · exact absurd h (by simp)
    · rename_i key rule hub
      obtain ⟨hmem, hlt, -⟩ := AssocList.upperBound_eq_some table.rules.sorted hub
      exact ⟨(key, rule), hmem, List.isPrefixOf_iff_prefix.mp h, hlt.ne⟩
  · rintro ⟨e, he, hpre, hne⟩
    have hlt : pending < e.1 := List.lt_of_prefix_of_ne hpre hne
    split
    · rename_i hub
      exact absurd hlt (by simpa using List.find?_eq_none.mp hub e he)
    · rename_i key rule hub
      obtain ⟨-, hkey, hleast⟩ := AssocList.upperBound_eq_some table.rules.sorted hub
      exact List.isPrefixOf_iff_prefix.mpr
        (List.prefix_of_lt_of_prefix hkey (hleast e he hlt) hpre)

/-! ## The converter as a greedy rewriter -/

/-- **Where no longer rule starts with the pending bytes, what follows them
does not change the best rule.** -/
theorem bestRule_append {pending : Bytes} (hhold : longerPrefix table pending = false)
    (s : Bytes) : bestRule table (pending ++ s) = bestRule table pending := by
  have hwithin : ∀ e ∈ table.rules.entries, e.1 <+: pending ++ s → e.1 <+: pending := by
    intro e he hpre
    rcases List.prefix_or_prefix_of_prefix hpre (List.prefix_append pending s) with h | h
    · exact h
    · by_cases heq : pending = e.1
      · exact heq ▸ List.prefix_rfl
      · exact absurd (longerPrefix_iff.mpr ⟨e, he, h, heq⟩) (by simp [hhold])
  ext rule
  rw [bestRule_eq_some_iff, bestRule_eq_some_iff]
  refine exists_congr (fun key => ⟨fun h => ?_, fun h => ?_⟩)
  · exact ⟨h.mem, hwithin _ h.mem h.starts,
      fun e he hpre => h.longest e he (hpre.trans (List.prefix_append _ _))⟩
  · exact ⟨h.mem, h.starts.trans (List.prefix_append _ _),
      fun e he hpre => h.longest e he (hwithin e he hpre)⟩

/-- What the conversion loop does with the bytes left. -/
def customStep (table : CustomRomajiTable) (pending : Bytes) : Bytes × ℕ :=
  match bestRule table pending with
  | some rule => (rule.output, rule.consume)
  | none => (pending.take 1, 1)

/-- **The converter with a custom table, as a greedy rewriter.** -/
def customRewriter (table : CustomRomajiTable) : GreedyRewriter UInt8 UInt8 where
  step := customStep table
  hold := longerPrefix table
  step_pos p _ := by
    unfold customStep
    split
    · exact (bestRule_consume ‹_›).1
    · exact le_rfl
  step_le p hp := by
    unfold customStep
    split
    · exact (bestRule_consume ‹_›).2
    · exact List.length_pos_iff.mpr hp
  stable p s hp hhold := by
    unfold customStep
    rw [bestRule_append hhold]
    split
    · rfl
    · rw [List.take_append_of_le_length (List.length_pos_iff.mpr hp)]

/-- The conversion loop makes one step of the rewriter, unless it waits. -/
theorem convertCustomPending_step {forceFlush : Bool} {pending : Bytes} (hne : pending ≠ [])
    (hgo : (!forceFlush && longerPrefix table pending) = false) :
    convertCustomPending table forceFlush pending
      = ((customStep table pending).1
          ++ (convertCustomPending table forceFlush
              (pending.drop (customStep table pending).2)).1,
        (convertCustomPending table forceFlush
          (pending.drop (customStep table pending).2)).2) := by
  cases pending with
  | nil => exact absurd rfl hne
  | cons front tail =>
    rw [convertCustomPending, if_neg (by simp [hgo])]
    unfold customStep
    split <;> split <;> simp_all

/-- The conversion loop stops on no pending bytes. -/
theorem convertCustomPending_nil (forceFlush : Bool) :
    convertCustomPending table forceFlush [] = ([], []) := by
  rw [convertCustomPending]

/-- The conversion loop stops where it waits. -/
theorem convertCustomPending_wait {pending : Bytes} (hwait : longerPrefix table pending = true) :
    convertCustomPending table false pending = ([], pending) := by
  cases pending with
  | nil => exact convertCustomPending_nil false
  | cons front tail => rw [convertCustomPending, if_pos (by simp [hwait])]

/-- **A forced conversion is a batch run.** -/
theorem convertCustomPending_true (pending : Bytes) :
    convertCustomPending table true pending = ((customRewriter table).batch pending, []) := by
  induction pending using GreedyRewriter.batch.induct (customRewriter table) with
  | case1 => rw [convertCustomPending_nil, GreedyRewriter.batch_nil]
  | case2 p hp ih =>
    rw [convertCustomPending_step hp rfl, GreedyRewriter.batch, dif_neg hp]
    exact congrArg (fun r : Bytes × Bytes => ((customStep table p).1 ++ r.1, r.2)) ih

/-- **A conversion that may wait is a drain.** -/
theorem convertCustomPending_false (pending : Bytes) :
    convertCustomPending table false pending = (customRewriter table).drain pending := by
  induction pending using GreedyRewriter.drain.induct (customRewriter table) with
  | case1 => rw [convertCustomPending_nil, GreedyRewriter.drain, dif_pos rfl]
  | case2 p hp hhold =>
    rw [convertCustomPending_wait hhold, GreedyRewriter.drain, dif_neg hp, if_pos hhold]
  | case3 p hp hhold ih =>
    have hgo : (!false && longerPrefix table p) = false := Bool.eq_false_of_not_eq_true hhold
    rw [convertCustomPending_step hp hgo, GreedyRewriter.drain, dif_neg hp, if_neg hhold]
    exact congrArg (fun r : Bytes × Bytes => ((customStep table p).1 ++ r.1, r.2)) ih

namespace RomajiKanaConverter

/-- Feeding keeps the table. -/
theorem feed_customTable {c : RomajiKanaConverter} (hc : c.customTable = some table)
    (ascii : UInt8) : (c.feed ascii).1.customTable = some table := by
  unfold feed convertPending
  rw [hc]

/-- **Feeding a text with a custom table is streaming its lower-case
form.** -/
theorem feedAll_eq_stream {c : RomajiKanaConverter} (hc : c.customTable = some table)
    (ascii : Bytes) :
    (c.feedAll ascii).1.customTable = some table
      ∧ (c.feedAll ascii).1.pending
          = ((customRewriter table).feedAll c.pending (ascii.map toLower)).2
      ∧ (c.feedAll ascii).2
          = ((customRewriter table).feedAll c.pending (ascii.map toLower)).1 := by
  induction ascii generalizing c with
  | nil => exact ⟨hc, rfl, rfl⟩
  | cons raw ascii ih =>
    have hfeed : ((c.feed raw).2, (c.feed raw).1.pending)
        = (customRewriter table).feed c.pending (toLower raw) := by
      unfold feed convertPending GreedyRewriter.feed
      simp only [hc]
      rw [convertCustomPending_false]
    obtain ⟨h₁, h₂, h₃⟩ := ih (feed_customTable hc raw)
    refine ⟨h₁, ?_, ?_⟩
    · rw [List.map_cons, GreedyRewriter.feedAll, ← hfeed]
      exact h₂
    · rw [List.map_cons, GreedyRewriter.feedAll, ← hfeed]
      exact congrArg ((c.feed raw).2 ++ ·) h₃

/-- **Typing and flushing is a batch run over the lower-case text.** -/
theorem convertForCommit_eq_batch (ascii : Bytes) :
    convertForCommit ascii (some table) = (customRewriter table).batch (ascii.map toLower) := by
  obtain ⟨h₁, h₂, h₃⟩ := feedAll_eq_stream
    (c := { customTable := some table }) rfl ascii
  unfold convertForCommit flush convertPending
  simp only [h₁]
  rw [convertCustomPending_true, h₂, h₃]
  exact ((customRewriter table).batch_eq_stream _).symm

/-- A flush leaves nothing pending. -/
theorem flush_pending (c : RomajiKanaConverter) : c.flush.1.pending = [] := by
  unfold flush convertPending
  cases c.customTable with
  | none => exact (convertBuiltinPending_true c.pending).1
  | some table => exact congrArg Prod.snd (convertCustomPending_true c.pending)

/-- Nothing pending flushes to nothing. -/
theorem flush_nil {c : RomajiKanaConverter} (h : c.pending = []) : c.flush.2 = [] := by
  unfold flush convertPending
  rw [h]
  cases c.customTable with
  | none => simp only; rw [convertBuiltinPending]
  | some table => simp only; rw [convertCustomPending_nil]

/-- Without a custom table, pending romaji prints something. -/
theorem flush_ne_nil_of_builtin {c : RomajiKanaConverter} (hc : c.customTable = none)
    (h : c.pending ≠ []) : c.flush.2 ≠ [] := by
  unfold flush convertPending
  rw [hc]
  exact (convertBuiltinPending_true c.pending).2 h

end RomajiKanaConverter

/-! ## The batch run is greedy conversion -/

/-- A batch run is a greedy conversion. -/
theorem greedyConversion_batch (input : Bytes) :
    GreedyConversion table input ((customRewriter table).batch input) := by
  induction input using GreedyRewriter.batch.induct (customRewriter table) with
  | case1 => rw [GreedyRewriter.batch_nil]; exact GreedyConversion.done
  | case2 p hp ih =>
    have hstep : (customRewriter table).batch p = (customStep table p).1
        ++ (customRewriter table).batch (p.drop (customStep table p).2) := by
      rw [GreedyRewriter.batch, dif_neg hp]
      rfl
    change GreedyConversion table (p.drop (customStep table p).2)
      ((customRewriter table).batch (p.drop (customStep table p).2)) at ih
    rw [hstep]
    cases hb : bestRule table p with
    | some rule =>
      obtain ⟨key, hkey⟩ := isLongestRule_of_bestRule hb
      simp only [customStep, hb] at ih ⊢
      exact GreedyConversion.rule hkey ih
    | none =>
      obtain ⟨b, t, rfl⟩ := List.exists_cons_of_ne_nil hp
      simp only [customStep, hb] at ih ⊢
      exact GreedyConversion.byte (not_prefix_of_bestRule_eq_none hb) ih

/-- A text has one greedy conversion. -/
theorem GreedyConversion.eq_batch {input output : Bytes}
    (h : GreedyConversion table input output) :
    output = (customRewriter table).batch input := by
  induction h with
  | done => rw [GreedyRewriter.batch_nil]
  | @rule input key output rule hkey _ ih =>
    have hb : bestRule table input = some rule := bestRule_eq_some_iff.mpr ⟨_, hkey⟩
    have hne : input ≠ [] := by
      rintro rfl
      have hconsume := bestRule_consume hb
      rw [List.length_nil] at hconsume
      omega
    rw [GreedyRewriter.batch, dif_neg hne, ih]
    simp only [customRewriter, customStep, hb]
  | @byte b input output hno _ ih =>
    have hb : bestRule table (b :: input) = none := by
      rw [Option.eq_none_iff_forall_ne_some]
      intro rule hrule
      obtain ⟨key, hkey⟩ := isLongestRule_of_bestRule hrule
      exact hno _ hkey.mem hkey.starts
    rw [GreedyRewriter.batch, dif_neg (List.cons_ne_nil _ _), ih]
    simp only [customRewriter, customStep, hb]
    rfl

/-- **Typing with a custom table is batch greedy conversion.** Feeding a text
byte by byte and flushing prints the one greedy conversion of the lower-case
text, and after every key the pending bytes are none or the beginning of a
longer rule. Both sides are total: the conversion exists and is unique. -/
theorem convertForCommit_iff_greedy (table : CustomRomajiTable) :
    (∀ ascii output, GreedyConversion table (ascii.map toLower) output
        ↔ output = RomajiKanaConverter.convertForCommit ascii (some table))
      ∧ ∀ typed,
          (({ customTable := some table } : RomajiKanaConverter).feedAll typed).1.pending = []
          ∨ ∃ e ∈ table.rules.entries,
              (({ customTable := some table } : RomajiKanaConverter).feedAll typed).1.pending <+: e.1
              ∧ (({ customTable := some table } : RomajiKanaConverter).feedAll typed).1.pending
                  ≠ e.1 := by
  refine ⟨fun ascii output => ?_, fun typed => ?_⟩
  · rw [RomajiKanaConverter.convertForCommit_eq_batch]
    exact ⟨GreedyConversion.eq_batch, fun h => h ▸ greedyConversion_batch _⟩
  · obtain ⟨-, hpending, -⟩ := RomajiKanaConverter.feedAll_eq_stream
      (c := { customTable := some table }) rfl typed
    rw [hpending]
    rcases (customRewriter table).feedAll_pending [] (typed.map toLower) (Or.inl rfl) with h | h
    · exact Or.inl h
    · exact Or.inr (longerPrefix_iff.mp h)

end AzooKey.Core

import AzooKey.Learning.LearningStoreFiles

/-!
# Saves that succeed

`safe_save` and `safe_clearLegacyFile` say that nothing succeeds on files that
cannot be written. Here is the converse: where no operation fails, and the old
file stays when its removal is tried, every store that is not blocked is saved
on files that can be written, and the old file loses its rows where that is
possible (`calm_save`, `calm_clearLegacyFile`). The removal of the old file may
fail without a report, so these are executions like others (`mayFail_of_calm`).
-/

namespace AzooKey.Learning.LearningStore

open Interactive

/-! ## Where nothing fails -/

/-- **What the operations do when none fails** and no old file is removed. -/
def diskCalm (crypto : ByteCrypto) : (op : DiskOp) → Disk → op.Answer → Disk → Prop
  | .on place op, d, answer, d' => neverFails crypto op (d place) answer (d' place) ∧ SameBut place d d'
  | .keepAside, d, (ok : Bool), d' => ok = true ∧ d' = d
  | .removeEncrypted _, d, _, d' => d' = d

/-- What the operations on the files of a place do is one of the things they may
do. -/
theorem mayFail_of_neverFails (crypto : ByteCrypto) (op : Op) (s : Files) (answer : op.Answer)
    (s' : Files) (h : neverFails crypto op s answer s') : mayFail crypto op s answer s' := by
  cases op with
  | lock => exact h.2
  | exists_ file => exact ⟨h.1, Or.inr h.2⟩
  | read file => exact ⟨h.1, Or.inr h.2⟩
  | copyBackup =>
    change if s.plain.isSome = true ∧ s.bak = none then _ else _ at h
    split at h
    · rename_i hfiles
      exact Or.inl ⟨h.1, hfiles.1, hfiles.2, h.2⟩
    · exact Or.inr ⟨h.1, Or.inl h.2⟩
  | flushBackup => exact h.2
  | encrypt text =>
    obtain ⟨rfl, cipher, rfl, hcipher, -⟩ := h
    exact ⟨rfl, fun other hother => Option.some.inj hother ▸ hcipher⟩
  | decrypt cipher => exact ⟨h.1, Or.inr h.2⟩
  | writeEncrypted cipher => exact Or.inl h
  | removePlain =>
    change if s.plain.isSome = true then _ else _ at h
    split at h
    · rename_i hplain
      exact Or.inl ⟨h.1, hplain, h.2⟩
    · exact Or.inr h

/-- So is what those on the disk do. -/
theorem mayFail_of_calm (crypto : ByteCrypto) (op : DiskOp) (d : Disk) (answer : op.Answer)
    (d' : Disk) (h : diskCalm crypto op d answer d') : diskMayFail crypto op d answer d' := by
  cases op with
  | on place op => exact ⟨mayFail_of_neverFails crypto op _ _ _ h.1, h.2⟩
  | keepAside => exact h.2
  | removeEncrypted place => exact Or.inl h

/-- Every operation is answered. -/
theorem diskCalm_total (crypto : ByteCrypto) (op : DiskOp) (d : Disk) :
    ∃ answer d', diskCalm crypto op d answer d' := by
  cases op with
  | on place op =>
    obtain ⟨answer, s', h⟩ := neverFails_total crypto op (d place)
    refine ⟨answer, Function.update d place s', ?_, fun q hq => Function.update_of_ne hq s' d⟩
    rw [Function.update_self]
    exact h
  | keepAside => exact ⟨true, d, rfl, rfl⟩
  | removeEncrypted place => exact ⟨(), d, rfl⟩

section Calm

variable {crypto : ByteCrypto} {d : Disk}

/-- A program at a place does there what it does alone. -/
theorem calm_onPlace {α : Type} {place : Place} {p : Program α} {I : Files → Prop}
    {Q : α → Files → Prop} (h : Safe (neverFails crypto) I Q p (d place)) :
    Safe (diskCalm crypto) (fun _ => True) (fun a d' => Q a (d' place) ∧ SameBut place d d')
      (onPlace place p) d :=
  Safe.lift (fun d : Disk => d place) (SameBut place) (fun _ _ _ => rfl)
    (fun _ _ _ h₁ h₂ q hq => (h₂ q hq).trans (h₁ q hq))
    (fun _ _ _ _ heffect => heffect) h

/-! ## Saving -/

/-- The current file is found. -/
theorem calm_v2Exists (channel : Channel) :
    Safe (diskCalm crypto) (fun _ => True) (fun found _ => found ≠ none) (v2Exists channel) d := by
  refine (calm_onPlace (calm_exists .enc)).bind (fun enc d₁ _ h₁ => ?_)
  rw [h₁.1.2]
  split
  · exact .pure trivial nofun
  · refine (calm_onPlace (calm_exists .plain)).bind (fun plain d₂ _ h₂ => .pure trivial ?_)
    rw [if_neg nofun, h₂.1.2]
    exact nofun

/-- **A store is saved** that is not blocked, on files that can be written. -/
theorem calm_save {channel : Channel} {s : Store} (hblocked : s.saveBlockedByLoadFailure = false)
    (hsavable : Savable crypto (d (.v2 channel)) (d (.legacy channel))) :
    Safe (diskCalm crypto) (fun _ => True)
      (fun r d' => r.1 = true
        ∧ (d' (.legacy channel) = d (.legacy channel) ∨ crypto.Writable (d' (.legacy channel))))
      (s.save channel) d := by
  unfold Store.save
  rw [hblocked, if_neg Bool.false_ne_true]
  refine ((calm_v2Exists channel).and ((safe_v2Exists channel).restrict
    (mayFail_of_calm crypto))).bind (fun found d₁ _ h₁ => ?_)
  obtain ⟨hsome, rfl, hfound⟩ := h₁
  obtain ⟨found, rfl⟩ := Option.ne_none_iff_exists'.mp hsome
  -- the old file is settled without a failure, if it has to be
  refine Safe.bind (Q := fun ok d₂ => ok = true ∧ SameBut (.legacy channel) d₁ d₂
    ∧ (d₂ (.legacy channel) = d₁ (.legacy channel) ∨ crypto.Writable (d₂ (.legacy channel)))) ?_
    (fun ok d₂ _ h₂ => ?_)
  · unfold settled
    split
    · exact .pure trivial ⟨rfl, fun _ _ => rfl, Or.inl rfl⟩
    · rename_i hmissing
      have hnone := hfound found rfl
      rw [Bool.not_eq_true] at hmissing
      rw [hmissing, eq_comm, Bool.or_eq_false_iff] at hnone
      have henc : (d₁ (.v2 channel)).enc = none := by simpa using hnone.1
      have hwritable := hsavable.settles henc
      refine (calm_onPlace (calm_settleProtectedFile hwritable)).imp (fun ok d₂ _ h => ?_)
      refine ⟨h.1.1, h.2, Or.inr ?_⟩
      rw [h.1.2]
      exact ⟨hwritable.holds, fun hplain => absurd rfl hplain, hwritable.enc_ne⟩
  obtain ⟨rfl, hbut, hlegacy⟩ := h₂
  rw [if_pos rfl]
  refine Safe.bind (Q := fun ok d₃ => ok = true ∧ d₃ = d₂) ?_ (fun ok d₃ _ h₃ => ?_)
  · unfold keptAside
    split
    · exact .ask trivial (fun _ _ h => ⟨trivial, h⟩)
    · exact .pure trivial ⟨rfl, rfl⟩
  obtain ⟨rfl, rfl⟩ := h₃
  rw [if_pos rfl]
  have hv2 : crypto.Writable (d₃ (.v2 channel)) := by
    rw [hbut _ (fun h => Place.noConfusion h)]
    exact hsavable.writable
  refine (calm_onPlace (calm_writeProtectedText hv2 s.serializeText)).bind (fun ok d₄ _ h₄ => ?_)
  obtain ⟨rfl, hsame⟩ := h₄
  rw [if_pos rfl]
  refine (safe_removeVerifiedLegacyFile (mayFail_of_calm crypto) channel s.serializeText).bind
    (fun _ d₅ _ h₅ => .pure trivial ⟨rfl, ?_⟩)
  -- where nothing is removed the old file stays
  have hstays : d₅ = d₄ := h₅.elim id (fun h => h.2)
  rw [hstays, hsame _ (fun h => Place.noConfusion h)]
  exact hlegacy

/-! ## The old file -/

/-- What is there is read. -/
theorem calm_readProtectedText {files : Files} (h : crypto.Writable files ∨ contents crypto files ≠ none) :
    Safe (neverFails crypto) (fun _ => True)
      (fun r s' => s' = files ∧ (r.1 = .missing ∨ (r.1 = .encrypted ∨ r.1 = .plaintext)
        ∧ contents crypto files = some r.2)) readProtectedText files := by
  refine (calm_exists .enc).bind (fun enc s₁ _ h₁ => ?_)
  rw [h₁.1, h₁.2]
  cases henc : files.enc with
  | some cipher =>
    have hcontents : contents crypto files = crypto.decrypt cipher := by
      rw [contents, henc]
      rfl
    have hholds : ∃ text, crypto.Holds files text := by
      rcases h with h | h
      · exact h.holds (by rw [henc]; exact Option.some_ne_none cipher)
      · obtain ⟨text, htext⟩ := Option.ne_none_iff_exists'.mp h
        exact ⟨text, cipher, henc, hcontents.symm.trans htext⟩
    obtain ⟨text, htext⟩ := hholds
    rw [show files.get .enc = some cipher from henc, Option.isSome_some]
    refine (calm_decryptFile htext).bind (fun answer s₂ _ h₂ => ?_)
    rw [h₂.1, h₂.2]
    exact .pure trivial ⟨rfl, Or.inr ⟨Or.inl rfl, contents_of_holds htext⟩⟩
  | none =>
    rw [show files.get .enc = none from henc, Option.isSome_none]
    refine (calm_exists .plain).bind (fun plain s₂ _ h₂ => ?_)
    rw [h₂.1, h₂.2]
    have hcontents : contents crypto files = files.plain := by
      rw [contents, henc]
      rfl
    cases hplain : files.plain with
    | some text =>
      rw [show files.get .plain = some text from hplain, Option.isSome_some]
      refine (calm_read .plain).bind (fun answer s₃ _ h₃ => ?_)
      rw [h₃.1, h₃.2, show files.get .plain = some text from hplain]
      exact .pure trivial ⟨rfl, Or.inr ⟨Or.inr rfl, hcontents.trans hplain⟩⟩
    | none =>
      rw [show files.get .plain = none from hplain, Option.isSome_none]
      have hbak : files.bak = none := by
        rcases h with h | h
        · rw [h.eq_none henc]
        · exact absurd (hcontents.trans hplain) h
      refine (calm_exists .bak).bind (fun bak s₃ _ h₃ => ?_)
      rw [h₃.1, h₃.2, show files.get .bak = none from hbak, Option.isSome_none]
      exact .pure trivial ⟨rfl, Or.inl rfl⟩

/-- A text without rows loses none. -/
theorem not_removed_of_noLegacyRow {text : Bytes} (h : ∀ segment ∈ Bytes.segments 0x0a text,
    parseLegacyRow false (Bytes.segmentText 0x0a segment) = none) :
    (withoutLegacyRows none text).2 = false := by
  refine List.any_eq_false.mpr (fun segment hsegment => ?_)
  have hnone : ∀ escapedFields, parseLegacyRow escapedFields (Bytes.segmentText 0x0a segment) = none := by
    intro escapedFields
    rw [← Option.not_isSome_iff_eq_none, isSome_parseLegacyRow, h segment hsegment]
    exact Bool.false_ne_true
  unfold dropsRow
  rw [hnone, Option.any_none, Bool.and_false]
  exact Bool.false_ne_true

/-- **The old file loses its rows** where that is possible. -/
theorem calm_clearLegacyFile {files : Files} (h : Clearable crypto files) :
    Safe (neverFails crypto) (fun _ => True) (fun ok _ => ok = true) clearLegacyFile files := by
  refine Safe.bind (Q := fun (r : Bool × Bool) _ => r.1 = true) ?_
    (fun r _ _ h => .pure trivial h)
  have hrewrite : ∀ text, contents crypto files = some text →
      Safe (neverFails crypto) (fun _ => True) (fun (r : Bool × Bool) _ => r.1 = true)
        (if (withoutLegacyRows none text).2 then do
            let ok ← writeProtectedText (withoutLegacyRows none text).1
            pure (ok, ok)
          else pure (true, false) : Program (Bool × Bool)) files := by
    intro text htext
    split
    · rename_i hremoved
      rcases h with h | ⟨-, h⟩
      · exact (calm_writeProtectedText h _).bind (fun ok _ _ hok => .pure trivial hok)
      · rw [not_removed_of_noLegacyRow (h text htext)] at hremoved
        cases hremoved
    · exact .pure trivial rfl
  refine (calm_readProtectedText (h.imp_right And.left)).bind (fun r files' _ hread => ?_)
  obtain ⟨source, text⟩ := r
  obtain ⟨rfl, hmissing | ⟨hsource, htext⟩⟩ := hread
  · obtain rfl : source = .missing := hmissing
    exact .pure trivial rfl
  · rcases hsource with hsource | hsource
    · obtain rfl : source = .encrypted := hsource
      exact hrewrite text htext
    · obtain rfl : source = .plaintext := hsource
      exact hrewrite text htext

end Calm

end AzooKey.Learning.LearningStore

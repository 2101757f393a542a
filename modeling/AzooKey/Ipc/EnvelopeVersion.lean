import AzooKey.Ipc.Messages

/-!
# The generation of an envelope

`Deserialize` drops an envelope whose version is not one that this build
understands. The version is read as a 64-bit integer, but it is compared only
after `static_cast<int>`, which keeps the low 32 bits: an envelope of
generation `2^32 + 1` passes for generation 1.

`versionGated_iff` says for which texts the gate holds: for all but those that
are otherwise complete and whose version is congruent to 1 modulo `2^32`
without being 1.
-/

namespace AzooKey.Ipc

open Json

/-- A value that has the other members of an envelope. -/
def HasMembers (v : Value) : Prop :=
  v.isObject = true ∧ (v.getUInt (utf8 "request_id")).isSome
    ∧ (v.getString (utf8 "type")).isSome ∧ (v.getString (utf8 "trace_id")).isSome

/-- **The gate on the version of a text**: if an envelope is read, then its
version member is no integer that `GetInt` represents, or one of the
generations of this build. -/
def VersionGated (text : Bytes) : Prop :=
  ∀ env, deserialize text = some env →
    ∀ v raw, parseWithRawMember text (utf8 "payload") = some (v, raw) →
      ∀ n, v.getInt (utf8 "version") = some n → 1 ≤ n ∧ n ≤ envelopeVersion

/-- The integers that the cast makes 1. -/
theorem castInt_eq_one {n : ℤ} : castInt n = 1 ↔ n % 2 ^ 32 = 1 := by
  unfold castInt
  have hmod := Int.emod_lt_of_pos n (by norm_num : (0 : ℤ) < 2 ^ 32)
  rw [Int.bmod_def]
  split <;> omega

/-- The versions of this build. -/
theorem version_not_gated {version : ℤ} :
    ¬ (version < 1 ∨ envelopeVersion < version) ↔ version = 1 := by
  unfold envelopeVersion
  omega

/-- **When an envelope is read**: the version that is compared is the cast
one. -/
theorem deserialize_isSome_iff {text raw : Bytes} {v : Value}
    (hparse : parseWithRawMember text (utf8 "payload") = some (v, raw)) :
    (deserialize text).isSome ↔ HasMembers v
      ∧ ((v.getInt (utf8 "version")).map castInt).getD envelopeVersion = 1 := by
  unfold deserialize HasMembers
  rw [hparse]
  dsimp only
  by_cases hobject : v.isObject = true
  · rw [hobject, Bool.not_true, if_neg Bool.false_ne_true]
    by_cases hversion : ((v.getInt (utf8 "version")).map castInt).getD envelopeVersion = 1
    · rw [if_neg (version_not_gated.mpr hversion)]
      cases v.getUInt (utf8 "request_id") with
      | none => simp
      | some id =>
        cases v.getString (utf8 "type") with
        | none => simp
        | some type =>
          cases v.getString (utf8 "trace_id") with
          | none => simp
          | some trace => simp [hversion]
    · rw [if_pos (by_contra fun h => hversion (version_not_gated.mp h))]
      simp [hversion]
  · simp [hobject]

/-- **The gate holds exactly for the texts whose version does not wrap
around**: unless a text has all the other members of an envelope and a version
that is 1 modulo `2^32`, and not 1. -/
theorem versionGated_iff (text : Bytes) :
    VersionGated text ↔ ¬ ∃ v raw n, parseWithRawMember text (utf8 "payload") = some (v, raw)
      ∧ HasMembers v ∧ v.getInt (utf8 "version") = some n ∧ n % 2 ^ 32 = 1 ∧ n ≠ 1 := by
  constructor
  · rintro hgated ⟨v, raw, n, hparse, hmembers, hn, hmod, hne⟩
    have hread : (deserialize text).isSome := by
      rw [deserialize_isSome_iff hparse, hn]
      exact ⟨hmembers, castInt_eq_one.mpr hmod⟩
    obtain ⟨env, henv⟩ := Option.isSome_iff_exists.mp hread
    have hbounds := hgated env henv v raw hparse n hn
    unfold envelopeVersion at hbounds
    exact hne (by omega)
  · intro hwrap env henv v raw hparse n hn
    have hread : (deserialize text).isSome := by rw [henv]; rfl
    rw [deserialize_isSome_iff hparse, hn] at hread
    have hone : n = 1 := by
      by_contra hne
      exact hwrap ⟨v, raw, n, hparse, hread.1, hn, castInt_eq_one.mp hread.2, hne⟩
    rw [hone]
    exact ⟨le_rfl, le_rfl⟩

/-- A ping of generation `2^32 + 1`. -/
def wrappedPing : Bytes :=
  utf8 "\x7b\"request_id\":1,\"trace_id\":\"\",\"type\":\"Ping\",\"version\":4294967297\x7d"

/-- **Generation `2^32 + 1` is taken for generation 1.** -/
theorem not_versionGated_wrappedPing :
    ¬ ∀ text env, deserialize text = some env →
      ∀ v raw, parseWithRawMember text (utf8 "payload") = some (v, raw) →
        ∀ n, v.getInt (utf8 "version") = some n → 1 ≤ n ∧ n ≤ envelopeVersion := by
  intro h
  have hread : (deserialize wrappedPing).isSome := by decide +kernel
  have hversion : ((parseWithRawMember wrappedPing (utf8 "payload")).bind
      (fun r => r.1.getInt (utf8 "version"))) = some 4294967297 := by decide +kernel
  obtain ⟨env, henv⟩ := Option.isSome_iff_exists.mp hread
  obtain ⟨⟨v, raw⟩, hparse, hn⟩ := Option.bind_eq_some_iff.mp hversion
  exact absurd (h wrappedPing env henv v raw hparse _ hn).2 (by decide)

end AzooKey.Ipc

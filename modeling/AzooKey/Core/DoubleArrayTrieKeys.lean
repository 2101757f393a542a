import AzooKey.Core.DoubleArrayTrieSafety

/-!
# The keys of a verified dictionary

An image that `Load` accepts with its verification is a set of keys. `Verify`
looks at one cell of the trie after another and never follows a key from the
root; what it checks of a cell is that the cell hangs below its parent by one
byte. Hence every cell in use is reached from the root along exactly one
string of bytes (`exists_walk`, `ancestry_of_walk`), that string is the one
whose encoding and entries were checked, and the keys are the strings of the
cells with a number.

`Verified` is what `Verify` leaves, in these terms. `ExactMatch` and
`CommonPrefixSearch` then answer from the list of the keys.
-/

namespace AzooKey.Core.Dictionary

open Ipc Faulting Dictbuild

/-! ## Walks from the root -/

/-- **The node that a string of bytes leads to.** -/
def Impl.walk (d : Impl) (state : ℕ) (key : Bytes) : Option ℕ := key.foldlM d.childOf state

section Walk

variable {d : Impl}

/-- A walk by one more byte at its end. -/
theorem walk_append_singleton (state : ℕ) (key : Bytes) (byte : UInt8) :
    d.walk state (key ++ [byte]) = (d.walk state key).bind (fun node => d.childOf node byte) := by
  unfold Impl.walk
  rw [List.foldlM_append]
  cases List.foldlM d.childOf state key with
  | none => rfl
  | some node => simp

/-- A walk by one byte and further. -/
theorem walk_cons (state : ℕ) (byte : UInt8) (key : Bytes) :
    d.walk state (byte :: key) = (d.childOf state byte).bind (fun node => d.walk node key) := by
  unfold Impl.walk
  rw [List.foldlM_cons]
  rfl

/-- A walk in two parts. -/
theorem walk_append (state : ℕ) (key rest : Bytes) :
    d.walk state (key ++ rest) = (d.walk state key).bind (fun node => d.walk node rest) := by
  unfold Impl.walk
  rw [List.foldlM_append]
  rfl

/-- A walk stays in the trie. -/
theorem walk_lt {state node : ℕ} {key : Bytes} (hstate : state < d.nodeCount)
    (h : d.walk state key = some node) : node < d.nodeCount := by
  induction key generalizing state with
  | nil =>
    cases h
    exact hstate
  | cons byte key ih =>
    rw [walk_cons] at h
    obtain ⟨child, hchild, h⟩ := Option.bind_eq_some_iff.mp h
    exact ih (childOf_eq_some.mp hchild).2.1 h

/-- The depth of a node is the length of the walk to it. -/
theorem walk_depth {state node : ℕ} {key : Bytes} (h : d.walk state key = some node) :
    d.field node 12 = d.field state 12 + key.length := by
  induction key generalizing state with
  | nil =>
    cases h
    rfl
  | cons byte key ih =>
    rw [walk_cons] at h
    obtain ⟨child, hchild, h⟩ := Option.bind_eq_some_iff.mp h
    rw [ih h, (childOf_eq_some.mp hchild).2.2.2.2, List.length_cons]
    omega

variable (hd : d.Fits)
include hd

/-- **`Verify` walks back the way that leads to a node.** -/
theorem ancestry_of_walk {key : Bytes} {node : ℕ} (h : d.walk 0 key = some node) (rest : Bytes)
    (s : Status) :
    d.ancestry (d.field node 12) node rest s = some (some (key ++ rest), s) := by
  induction key using List.reverseRecOn generalizing node rest with
  | nil =>
    cases h
    rw [Impl.ancestry, if_pos rfl]
    rfl
  | append_singleton key byte ih =>
    have hnode := walk_lt (root_lt hd) h
    rw [walk_append_singleton] at h
    obtain ⟨parent, hparent, hchild⟩ := Option.bind_eq_some_iff.mp h
    have hlt := walk_lt (root_lt hd) hparent
    obtain ⟨hnext, -, hup, -, hdepth⟩ := childOf_eq_some.mp hchild
    have hroot : node ≠ 0 := by
      rintro rfl
      rw [hd.root_depth] at hdepth
      omega
    have hbase : d.field parent 0 < 256 ^ 4 := value_lt _ _ _
    have hbyte : UInt8.ofNat (node + (2 ^ 32 - d.field parent 0)) = byte := by
      apply UInt8.toNat_inj.mp
      rw [UInt8.toNat_ofNat']
      have := byte.toNat_lt
      omega
    rw [Impl.ancestry, if_neg hroot, bind_of_eq_some (node_apply hd hnode (by norm_num) s), hup,
      if_neg (not_le.mpr hlt), bind_of_eq_some (node_apply hd hlt (by norm_num) s),
      if_pos (by omega), bind_of_eq_some (node_apply hd hlt (by norm_num) s), hbyte,
      ih hparent, List.append_assoc]
    rfl

end Walk

/-! ## What `Verify` finds -/

/-- **What `Verify` checks of a cell that is in use**: it hangs below its parent,
and its key has a range of entries. -/
structure Impl.Sound (d : Impl) (i : ℕ) : Prop where
  parent_lt : d.field i 4 < d.nodeCount
  parent_used : d.field (d.field i 4) 4 ≠ noNode
  edge : ∃ byte : UInt8, byte ≠ 0 ∧ d.childOf (d.field i 4) byte = some i
  goodKey : d.GoodKey i

/-- A key that `Verify` has seen at a cell. -/
structure Impl.Seen (d : Impl) (i id : ℕ) (key : Bytes) (s : Status) : Prop where
  used : d.field i 4 ≠ noNode
  number : ∃ m, d.keyOf i = some m ∧ m.keyId = id
  ancestry : d.ancestry (d.field i 12) i [] s = some (some key, s)
  valid : isValidUtf8 key = true

section VerifyNode

variable {d : Impl} (hd : d.Fits)
include hd

/-- What `Verify` does with a key. -/
theorem verifyKey_eq_some {texts texts' : List (Option Bytes)} {i depth : ℕ} {found : PrefixMatch}
    {s s' : Status} (hi : i < d.nodeCount)
    (h : d.verifyKey texts i depth found s = some (some texts', s')) :
    texts.getD found.keyId none = none
      ∧ ∃ key, d.ancestry depth i [] s = some (some key, s) ∧ isValidUtf8 key = true
        ∧ texts' = texts.set found.keyId (some key) := by
  unfold Impl.verifyKey at h
  split at h
  · cases h
  · rename_i hnew
    obtain ⟨key, s₁, hkey, h₁⟩ := exists_of_bind h
    cases key with
    | none => cases h₁
    | some key =>
      obtain ⟨rfl, -⟩ := (attempt_ancestry hd hi []).of_eq_some hkey
      dsimp only at h₁
      split at h₁
      · cases h₁
      · rename_i hvalid
        obtain ⟨entries, s₂, -, h₂⟩ := exists_of_bind h₁
        split at h₂
        · cases h₂
        · split at h₂
          · cases h₂
          · cases h₂
            refine ⟨?_, key, hkey, by simpa using hvalid, rfl⟩
            cases htext : texts.getD found.keyId none with
            | none => rfl
            | some text =>
              rw [htext] at hnew
              exact absurd rfl hnew

/-- **What `Verify` finds at a cell.** -/
theorem verifyNode_eq_some {texts texts' : List (Option Bytes)} {i : ℕ} {s s' : Status}
    (hi : i < d.nodeCount) (h : d.verifyNode texts i s = some (some texts', s')) :
    s' = s ∧ ((d.field i 4 = noNode ∧ texts' = texts)
      ∨ d.Sound i ∧ ((d.keyOf i = none ∧ texts' = texts)
        ∨ ∃ m key, d.keyOf i = some m ∧ texts.getD m.keyId none = none
          ∧ d.Seen i m.keyId key s ∧ texts' = texts.set m.keyId (some key))) := by
  refine ⟨((attempt_verifyNode hd texts hi).of_eq_some h).1, ?_⟩
  unfold Impl.verifyNode at h
  rw [bind_of_eq_some (node_apply hd hi (by norm_num) s)] at h
  split at h
  · rename_i hfree
    cases h
    exact Or.inl ⟨hfree, rfl⟩
  · rename_i hused
    split at h
    · cases h
    · rename_i hparent
      have hlt := not_le.mp hparent
      rw [bind_of_eq_some (node_apply hd hlt (by norm_num) s),
        bind_of_eq_some (node_apply hd hlt (by norm_num) s),
        bind_of_eq_some (node_apply hd hi (by norm_num) s),
        bind_of_eq_some (node_apply hd hlt (by norm_num) s)] at h
      split at h
      · cases h
      · rename_i hedge
        rw [not_or, not_or, not_or] at hedge
        obtain ⟨hup, -, hbase, hfar⟩ := hedge
        obtain ⟨child, s₁, hchild, h₁⟩ := exists_of_bind h
        split at h₁
        · cases h₁
        · rename_i hsame
          rw [not_not.mp hsame] at hchild
          obtain ⟨hnext, -, hcheck, hmax, hdepth, rfl⟩ := step_eq_some hchild
          obtain ⟨s₂, hmatch, hgood, hbad⟩ := answers_matchNode hd hi s₁
          rw [bind_of_eq_some hmatch] at h₁
          have hbyte : UInt8.ofNat (i - d.field (d.field i 4) 0) ≠ 0 := by
            intro hzero
            have hnat := congrArg UInt8.toNat hzero
            rw [UInt8.toNat_ofNat'] at hnat
            simp only [UInt8.reduceToNat] at hnat
            omega
          have hchildOf := childOf_eq_some.mpr ⟨hnext, hi, hcheck, hmax, hdepth⟩
          cases hkey : d.keyOf i with
          | none =>
            rw [hkey] at h₁
            have h₂ : some (if s₂.available then some texts else none, s₂) = some (some texts', s') :=
              h₁
            have havailable : s₂.available = true := by
              by_contra hgone
              rw [if_neg hgone] at h₂
              cases h₂
            have hkeyGood : d.GoodKey i := by
              by_contra hno
              rw [hbad hno] at havailable
              cases havailable
            rw [if_pos havailable] at h₂
            cases h₂
            exact Or.inr ⟨⟨hlt, hup, ⟨_, hbyte, hchildOf⟩, hkeyGood⟩, Or.inl ⟨rfl, rfl⟩⟩
          | some m =>
            have hkeyGood : d.GoodKey i := fun _ => by rw [hkey]; rfl
            rw [hkey, hgood hkeyGood] at h₁
            obtain ⟨next, s₃, hverify, h₂⟩ := exists_of_bind h₁
            have h₃ : some (if s₃.available then next else none, s₃) = some (some texts', s') := h₂
            have hnext' : next = some texts' := by
              split at h₃
              · exact congrArg Prod.fst (Option.some.inj h₃)
              · cases h₃
            rw [hnext'] at hverify
            obtain ⟨hnew, key, hancestry, hvalid, hset⟩ := verifyKey_eq_some hd hi hverify
            exact Or.inr ⟨⟨hlt, hup, ⟨_, hbyte, hchildOf⟩, hkeyGood⟩, Or.inr ⟨m, key, rfl, hnew,
              ⟨hused, ⟨m, hkey, rfl⟩, hancestry, hvalid⟩, hset⟩⟩

end VerifyNode

/-- **The cells that `Verify` has been at**, and the keys that it found there. -/
structure Impl.Checked (d : Impl) (s : Status) (done : List ℕ) (texts : List (Option Bytes)) :
    Prop where
  length : texts.length = d.keys
  sound : ∀ i ∈ done, d.field i 4 ≠ noNode → d.Sound i
  numbered : ∀ i ∈ done, d.field i 4 ≠ noNode → ∀ m ∈ d.keyOf i,
    ∃ key, d.Seen i m.keyId key s ∧ texts[m.keyId]? = some (some key)
  seen : ∀ id key, texts[id]? = some (some key) → ∃ i ∈ done, d.Seen i id key s

/-- A key has one of the numbers that there are. -/
theorem keyId_lt {d : Impl} {node : ℕ} {m : PrefixMatch} (h : d.keyOf node = some m) :
    m.keyId < d.keys := by
  unfold Impl.keyOf at h
  dsimp only at h
  split at h
  · rename_i hkey
    cases h
    exact hkey.2.1
  · cases h

/-- Nothing has been checked before. -/
theorem checked_nil (d : Impl) (s : Status) : d.Checked s [] (List.replicate d.keys none) where
  length := List.length_replicate
  sound i hi := absurd hi List.not_mem_nil
  numbered i hi := absurd hi List.not_mem_nil
  seen id key h := by
    rw [List.getElem?_replicate] at h
    split at h <;> cases h

/-- **One more cell.** A key that was found is not found again, so that it stays
where it is. -/
theorem Impl.Checked.next {d : Impl} (hd : d.Fits) {s s' : Status} {done : List ℕ}
    {texts texts' : List (Option Bytes)} {i : ℕ} (hchecked : d.Checked s done texts)
    (hi : i < d.nodeCount) (h : d.verifyNode texts i s = some (some texts', s')) :
    d.Checked s (done ++ [i]) texts' := by
  obtain ⟨-, ⟨hfree, rfl⟩ | ⟨hsound, hkey⟩⟩ := verifyNode_eq_some hd hi h
  · refine ⟨hchecked.length, fun j hj hused => ?_, fun j hj hused => ?_, fun id key hid => ?_⟩
    · rcases List.mem_append.mp hj with hj | hj
      · exact hchecked.sound j hj hused
      · rw [List.mem_singleton.mp hj] at hused
        exact absurd hfree hused
    · rcases List.mem_append.mp hj with hj | hj
      · exact hchecked.numbered j hj hused
      · rw [List.mem_singleton.mp hj] at hused
        exact absurd hfree hused
    · obtain ⟨j, hj, hseen⟩ := hchecked.seen id key hid
      exact ⟨j, List.mem_append_left _ hj, hseen⟩
  · have hsounds : ∀ j ∈ done ++ [i], d.field j 4 ≠ noNode → d.Sound j := by
      intro j hj hused
      rcases List.mem_append.mp hj with hj | hj
      · exact hchecked.sound j hj hused
      · rw [List.mem_singleton.mp hj]
        exact hsound
    obtain ⟨hnone, rfl⟩ | ⟨m, key, hm, hnew, hseen, rfl⟩ := hkey
    · refine ⟨hchecked.length, hsounds, fun j hj hused => ?_, fun id key hid => ?_⟩
      · rcases List.mem_append.mp hj with hj | hj
        · exact hchecked.numbered j hj hused
        · rw [List.mem_singleton.mp hj, hnone]
          exact fun _ hno => by cases hno
      · obtain ⟨j, hj, hseen⟩ := hchecked.seen id key hid
        exact ⟨j, List.mem_append_left _ hj, hseen⟩
    · have hlt : m.keyId < texts.length := by
        rw [hchecked.length]
        exact keyId_lt hm
      have hself : (texts.set m.keyId (some key))[m.keyId]? = some (some key) := by
        rw [List.getElem?_set_self hlt]
      refine ⟨by rw [List.length_set, hchecked.length], hsounds, fun j hj hused m' hm' => ?_,
        fun id key' hid => ?_⟩
      · rcases List.mem_append.mp hj with hj | hj
        · obtain ⟨key', hseen', htext⟩ := hchecked.numbered j hj hused m' hm'
          have hne : m.keyId ≠ m'.keyId := by
            intro heq
            rw [heq, List.getD_eq_getElem?_getD, htext] at hnew
            cases hnew
          exact ⟨key', hseen', by rw [List.getElem?_set_ne hne, htext]⟩
        · rw [List.mem_singleton.mp hj, hm] at hm'
          cases hm'
          rw [List.mem_singleton.mp hj]
          exact ⟨key, hseen, hself⟩
      · by_cases hid' : m.keyId = id
        · subst hid'
          rw [hself] at hid
          cases hid
          exact ⟨i, by simp, hseen⟩
        · rw [List.getElem?_set_ne hid'] at hid
          obtain ⟨j, hj, hseen'⟩ := hchecked.seen id key' hid
          exact ⟨j, List.mem_append_left _ hj, hseen'⟩

/-! ## The keys -/

/-- **A verified dictionary with its keys**, by their numbers. -/
structure Impl.Verified (d : Impl) (keys : List Bytes) : Prop where
  fits : d.Fits
  sound : ∀ i, 0 < i → i < d.nodeCount → d.field i 4 ≠ noNode → d.Sound i
  length : keys.length = d.keys
  sorted : keys.Pairwise (· < ·)
  valid : ∀ key ∈ keys, isValidUtf8 key = true
  key_of_node : ∀ {q i m}, d.walk 0 q = some i → d.keyOf i = some m → keys[m.keyId]? = some q
  node_of_key : ∀ {id q}, keys[id]? = some q →
    ∃ i m, d.walk 0 q = some i ∧ d.keyOf i = some m ∧ m.keyId = id

/-- Keys in increasing order. -/
theorem pairwise_of_increasing {keys : List Bytes} (h : increasing keys = true) :
    keys.Pairwise (· < ·) := by
  induction keys with
  | nil => exact List.Pairwise.nil
  | cons a keys ih =>
    cases keys with
    | nil => exact List.pairwise_singleton _ _
    | cons b keys =>
      rw [increasing, Bool.and_eq_true, decide_eq_true_eq] at h
      have hrest := ih h.2
      refine List.pairwise_cons.mpr ⟨fun c hc => ?_, hrest⟩
      rcases List.mem_cons.mp hc with rfl | hc
      · exact h.1
      · exact lt_trans h.1 ((List.pairwise_cons.mp hrest).1 c hc)

/-- **Every cell in use is reached from the root.** -/
theorem exists_walk {d : Impl}
    (hsound : ∀ i, 0 < i → i < d.nodeCount → d.field i 4 ≠ noNode → d.Sound i)
    {i : ℕ} (hi : i < d.nodeCount) (hused : d.field i 4 ≠ noNode) :
    ∃ q, d.walk 0 q = some i := by
  induction hdepth : d.field i 12 using Nat.strong_induction_on generalizing i with
  | _ depth ih =>
    by_cases hroot : i = 0
    · exact ⟨[], by rw [hroot]; rfl⟩
    · obtain ⟨hlt, hup, ⟨byte, -, hchild⟩, -⟩ := hsound i (Nat.pos_of_ne_zero hroot) hi hused
      have hparent := (childOf_eq_some.mp hchild).2.2.2.2
      obtain ⟨q, hq⟩ := ih (d.field (d.field i 4) 12) (by omega) hlt hup rfl
      exact ⟨q ++ [byte], by rw [walk_append_singleton, hq]; exact hchild⟩

section Verified

variable {d : Impl} (hd : d.Fits)
include hd

/-- The root has no key. -/
theorem keyOf_root : d.keyOf 0 = none := by
  unfold Impl.keyOf
  exact if_neg (fun h => h.1 hd.root_id)

/-- The number of a node is not the one that stands for no node. -/
theorem ne_noNode {node : ℕ} (h : node < d.nodeCount) : node ≠ noNode :=
  ne_of_lt (lt_of_lt_of_le h hd.nodeCount_le)

/-- A child is a cell in use. -/
theorem used_of_childOf {state child : ℕ} {byte : UInt8} (hstate : state < d.nodeCount)
    (h : d.childOf state byte = some child) : 0 < child ∧ d.field child 4 ≠ noNode := by
  obtain ⟨-, -, hparent, -, hdepth⟩ := childOf_eq_some.mp h
  refine ⟨Nat.pos_of_ne_zero ?_, ?_⟩
  · rintro rfl
    rw [hd.root_depth] at hdepth
    omega
  · rw [hparent]
    exact ne_noNode hd hstate

/-- A node that a walk reaches is the root or a cell in use. -/
theorem used_of_walk {q : Bytes} {i : ℕ} (h : d.walk 0 q = some i) (hi : i ≠ 0) :
    d.field i 4 ≠ noNode := by
  rcases List.eq_nil_or_concat q with rfl | ⟨q, byte, rfl⟩
  · cases h
    exact absurd rfl hi
  · rw [List.concat_eq_append, walk_append_singleton] at h
    obtain ⟨parent, hparent, hchild⟩ := Option.bind_eq_some_iff.mp h
    exact (used_of_childOf hd (walk_lt (root_lt hd) hparent) hchild).2

/-- **Once all cells have been checked** the texts are the keys. -/
theorem Impl.Checked.verified {s : Status} {texts : List (Option Bytes)}
    (h : d.Checked s (List.range' 1 (d.nodeCount - 1)) texts) (hall : none ∉ texts)
    (hincreasing : increasing (texts.map (fun t => t.getD [])) = true) :
    d.Verified (texts.map (fun t => t.getD [])) := by
  have hcell : ∀ i, 0 < i → i < d.nodeCount → i ∈ List.range' 1 (d.nodeCount - 1) :=
    fun i h₁ h₂ => List.mem_range'_1.mpr (by omega)
  have hsound : ∀ i, 0 < i → i < d.nodeCount → d.field i 4 ≠ noNode → d.Sound i :=
    fun i h₁ h₂ => h.sound i (hcell i h₁ h₂)
  have hget : ∀ {id : ℕ} {key : Bytes}, (texts.map (fun t => t.getD []))[id]? = some key →
      texts[id]? = some (some key) := by
    intro id key hid
    rw [List.getElem?_map] at hid
    obtain ⟨text, htext, rfl⟩ := Option.map_eq_some_iff.mp hid
    cases text with
    | none => exact absurd (List.mem_of_getElem? htext) hall
    | some text => exact htext
  refine ⟨hd, hsound, by rw [List.length_map, h.length], pairwise_of_increasing hincreasing,
    fun key hkey => ?_, fun {q i m} hwalk hm => ?_, fun {id q} hid => ?_⟩
  · obtain ⟨id, hid⟩ := List.mem_iff_getElem?.mp hkey
    obtain ⟨i, -, hseen⟩ := h.seen id key (hget hid)
    exact hseen.valid
  · have hroot : i ≠ 0 := by
      rintro rfl
      rw [keyOf_root hd] at hm
      cases hm
    have hused := used_of_walk hd hwalk hroot
    have hi := hcell i (Nat.pos_of_ne_zero hroot) (walk_lt (root_lt hd) hwalk)
    obtain ⟨key, hseen, htext⟩ := h.numbered i hi hused m hm
    have hancestry := hseen.ancestry
    rw [ancestry_of_walk hd hwalk, List.append_nil] at hancestry
    cases hancestry
    rw [List.getElem?_map, htext]
    rfl
  · obtain ⟨i, hi, hseen⟩ := h.seen id q (hget hid)
    have hlt : i < d.nodeCount := by
      have := List.mem_range'_1.mp hi
      omega
    obtain ⟨q', hwalk⟩ := exists_walk hsound hlt hseen.used
    have hancestry := hseen.ancestry
    rw [ancestry_of_walk hd hwalk, List.append_nil] at hancestry
    cases hancestry
    obtain ⟨m, hm, hid⟩ := hseen.number
    exact ⟨i, m, hwalk, hm, hid⟩

/-- What a verification that succeeds goes through. -/
theorem verify_eq_true {s s' : Status}
    (h : d.verify s = some (true, s')) :
    ∃ texts s₁, foldUntil d.verifyNode (List.range' 1 (d.nodeCount - 1))
        (List.replicate d.keys none) s = some (some texts, s₁)
      ∧ texts.any Option.isNone = false ∧ increasing (texts.map (fun t => t.getD [])) = true
      ∧ d.verifyTables s₁ = some (true, s') := by
  have hheader := hd.header
  unfold Impl.verify at h
  obtain ⟨available, s₁, havailable, h⟩ := exists_of_bind h
  cases havailable
  split at h
  · cases h
  · rw [bind_of_eq_some (bytes_apply (by omega) s), bind_of_eq_some (read_apply (by omega) s)] at h
    split at h
    · cases h
    · obtain ⟨texts, s₂, htexts, h⟩ := exists_of_bind h
      cases texts with
      | none => cases h
      | some texts =>
        dsimp only at h
        split at h
        · cases h
        · rename_i hall
          split at h
          · cases h
          · rename_i hincreasing
            exact ⟨texts, s₂, htexts, Bool.eq_false_iff.mpr hall, by simpa using hincreasing, h⟩

/-- **What `Verify` leaves.** -/
theorem verified_of_verify {s s' : Status} (h : d.verify s = some (true, s')) :
    s' = s ∧ ∃ keys, d.Verified keys := by
  refine ⟨?_, ?_⟩
  · obtain ⟨r, s₁, hr, hsame⟩ := yields_verify hd s
    rw [h] at hr
    cases hr
    exact hsame rfl
  · obtain ⟨texts, s₁, htexts, hall, hincreasing, -⟩ := verify_eq_true hd h
    have hchecked : s₁ = s ∧ d.Checked s (List.range' 1 (d.nodeCount - 1)) texts := by
      refine foldUntil_eq_some (P := fun done acc s₂ => s₂ = s ∧ d.Checked s done acc)
        (fun done acc i s₂ acc' s₃ hi hP hround => ?_) ⟨rfl, checked_nil d s⟩ htexts
      obtain ⟨rfl, hP⟩ := hP
      have hlt : i < d.nodeCount := by
        have := List.mem_range'_1.mp hi
        omega
      exact ⟨(verifyNode_eq_some hd hlt hround).1, hP.next hd hlt hround⟩
    exact ⟨_, hchecked.2.verified hd (fun hno => by simpa using List.any_eq_false.mp hall _ hno)
      hincreasing⟩

end Verified

/-! ## Queries -/

/-- **What the dictionary knows of a key**: its length, its number, and the range
of its references. -/
def Impl.find (d : Impl) (keys : List Bytes) (q : Bytes) : Option PrefixMatch :=
  (keys.idxOf? q).map (fun id => ⟨q.length, id, d.image.value (d.keySection.offset + id * 8) 4,
    d.image.value (d.keySection.offset + id * 8 + 4) 4⟩)

/-- The first of a list, up to a maximum; zero stands for no maximum. -/
def firstOf {α : Type} (maximum : ℕ) (l : List α) : List α :=
  if maximum = 0 then l else l.take maximum

/-- A list below the maximum. -/
theorem firstOf_of_lt {α : Type} {maximum : ℕ} {l : List α} (h : maximum ≠ 0 → l.length < maximum) :
    firstOf maximum l = l := by
  unfold firstOf
  split
  · rfl
  · rename_i hmax
    exact List.take_of_length_le (h hmax).le

/-- What lies behind the maximum does not matter. -/
theorem firstOf_append_left {α : Type} {maximum : ℕ} {l : List α} (l' : List α) (hmax : maximum ≠ 0)
    (h : maximum ≤ l.length) : firstOf maximum (l ++ l') = firstOf maximum l := by
  unfold firstOf
  rw [if_neg hmax, if_neg hmax, List.take_append_of_le_length h]

/-- A list that reaches the maximum. -/
theorem firstOf_append {α : Type} {maximum : ℕ} {l l' : List α} (hmax : maximum ≠ 0)
    (h : l.length = maximum) : firstOf maximum (l ++ l') = l := by
  rw [firstOf_append_left l' hmax h.ge, firstOf, if_neg hmax, List.take_of_length_le h.le]

/-- The beginnings of a text, the empty one apart. -/
theorem inits_eq_cons_tail {α : Type} (l : List α) : l.inits = [] :: l.inits.tail := by
  cases l with
  | nil => rfl
  | cons a l => rw [List.inits_cons, List.tail_cons]

/-- The question whether the dictionary is available. -/
theorem isAvailable_apply (s : Status) : isAvailable s = some (s.available, s) := rfl

/-- The key of a node, field by field. -/
theorem keyOf_eq {d : Impl} {node : ℕ} {m : PrefixMatch} (h : d.keyOf node = some m) :
    m = ⟨d.field node 12, m.keyId, d.image.value (d.keySection.offset + m.keyId * 8) 4,
      d.image.value (d.keySection.offset + m.keyId * 8 + 4) 4⟩ := by
  unfold Impl.keyOf at h
  dsimp only at h
  split at h
  · cases h
    rfl
  · cases h

namespace Impl.Verified

variable {d : Impl} {keys : List Bytes} (h : d.Verified keys)
include h

/-- The number of a key. -/
theorem idxOf_eq_some {id : ℕ} {q : Bytes} : keys.idxOf? q = some id ↔ keys[id]? = some q := by
  have hnodup : keys.Nodup := h.sorted.imp (fun hlt => ne_of_lt hlt)
  constructor
  · intro hid
    rw [List.idxOf?, List.findIdx?_eq_some_iff_getElem] at hid
    obtain ⟨hlt, heq, -⟩ := hid
    rw [List.getElem?_eq_getElem hlt, eq_of_beq heq]
  · intro hid
    obtain ⟨hlt, rfl⟩ := List.getElem?_eq_some_iff.mp hid
    rw [List.idxOf?, List.findIdx?_eq_some_iff_getElem]
    refine ⟨hlt, beq_self_eq_true _, fun j hj heq => ?_⟩
    have := (List.Nodup.getElem_inj_iff hnodup).mp (eq_of_beq heq)
    omega

/-- **The keys are the strings that lead to the nodes with a key.** -/
theorem find_eq (q : Bytes) : d.find keys q = (d.walk 0 q).bind d.keyOf := by
  unfold Impl.find
  cases hid : keys.idxOf? q with
  | some id =>
    obtain ⟨i, m, hwalk, hm, rfl⟩ := h.node_of_key (h.idxOf_eq_some.mp hid)
    have hdepth := walk_depth hwalk
    rw [h.fits.root_depth, Nat.zero_add] at hdepth
    rw [hwalk, Option.bind_some, hm, keyOf_eq hm, hdepth]
    rfl
  | none =>
    symm
    rw [Option.map_none, Option.bind_eq_none_iff]
    intro i hwalk
    cases hm : d.keyOf i with
    | none => rfl
    | some m =>
      rw [h.idxOf_eq_some.mpr (h.key_of_node hwalk hm)] at hid
      cases hid

/-- What is found is a key. -/
theorem mem_of_find {q : Bytes} {m : PrefixMatch} (hfind : d.find keys q = some m) : q ∈ keys := by
  obtain ⟨id, hid, -⟩ := Option.map_eq_some_iff.mp hfind
  exact List.mem_of_getElem? (h.idxOf_eq_some.mp hid)

/-- A node that a byte leads to has the depth that it should have. -/
theorem goodDepth {state : ℕ} (hstate : state < d.nodeCount) {byte : UInt8} (hbyte : byte ≠ 0) :
    d.GoodDepth state byte := by
  intro hnext hparent
  have hpos : 0 < d.field state 0 + byte.toNat := by
    have : byte.toNat ≠ 0 := fun hzero => hbyte (UInt8.toNat_inj.mp hzero)
    omega
  have hused : d.field (d.field state 0 + byte.toNat) 4 ≠ noNode := by
    rw [hparent]
    exact ne_noNode h.fits hstate
  obtain ⟨byte', -, hchild⟩ := (h.sound _ hpos hnext hused).edge
  rw [hparent] at hchild
  exact (childOf_eq_some.mp hchild).2.2.2

/-- **A step** goes to the child and leaves the status alone. -/
theorem step_apply {state : ℕ} (hstate : state < d.nodeCount) {byte : UInt8} (hbyte : byte ≠ 0)
    (s : Status) : d.step state byte s = some (d.childOf state byte, s) := by
  obtain ⟨s', hstep, hsame, -⟩ := answers_step h.fits hstate byte s
  rw [hstep, hsame (h.goodDepth hstate hbyte)]

/-- The key of a node that is the root or in use is right. -/
theorem goodKey {node : ℕ} (hnode : node < d.nodeCount)
    (hused : node = 0 ∨ d.field node 4 ≠ noNode) : d.GoodKey node := by
  by_cases hroot : node = 0
  · rw [hroot]
    exact fun hid => absurd h.fits.root_id hid
  · exact (h.sound node (Nat.pos_of_ne_zero hroot) hnode (hused.resolve_left hroot)).goodKey

/-- **`Match`** finds the key and leaves the status alone. -/
theorem matchNode_apply {node : ℕ} (hnode : node < d.nodeCount)
    (hused : node = 0 ∨ d.field node 4 ≠ noNode) (s : Status) :
    d.matchNode node s = some (d.keyOf node, s) := by
  obtain ⟨s', hmatch, hsame, -⟩ := answers_matchNode h.fits hnode s
  rw [hmatch, hsame (h.goodKey hnode hused)]

/-- A walk of the reader is a walk. -/
theorem walk_apply {key : Bytes} (hkey : 0 ∉ key) {state : ℕ} (hstate : state < d.nodeCount)
    (s : Status) : foldUntil d.step key state s = some (d.walk state key, s) := by
  induction key generalizing state with
  | nil => rfl
  | cons byte key ih =>
    rw [foldUntil, bind_of_eq_some (h.step_apply hstate
      (fun hzero => hkey (hzero ▸ List.mem_cons_self)) s), walk_cons]
    cases hchild : d.childOf state byte with
    | none => rfl
    | some child =>
      exact ih (fun hzero => hkey (List.mem_cons_of_mem _ hzero)) (childOf_eq_some.mp hchild).2.1

/-- The empty text and what is not a text are no keys. -/
theorem find_eq_none {q : Bytes} (hq : q = [] ∨ isValidUtf8 q = false) : d.find keys q = none := by
  rcases hq with rfl | hq
  · rw [h.find_eq]
    exact keyOf_root h.fits
  · cases hfind : d.find keys q with
    | none => rfl
    | some m =>
      rw [h.valid q (h.mem_of_find hfind)] at hq
      cases hq

/-- **`ExactMatch`** finds the keys. -/
theorem exactMatch_apply (q : Bytes) {s : Status} (hs : s.available = true) :
    d.exactMatch q s = some (d.find keys q, s) := by
  unfold Impl.exactMatch
  rw [bind_of_eq_some (isAvailable_apply s), hs]
  split
  · rename_i hguard
    rw [h.find_eq_none (by simpa using hguard)]
    rfl
  · rename_i hguard
    simp only [Bool.not_true, Bool.false_or, Bool.or_eq_true, not_or, Bool.not_eq_true,
      Bool.not_eq_false'] at hguard
    have hnul := (isValidUtf8_iff.mp hguard.2).2
    rw [bind_of_eq_some (h.walk_apply hnul (root_lt h.fits) s), h.find_eq]
    cases hwalk : d.walk 0 q with
    | none => rfl
    | some node =>
      refine h.matchNode_apply (walk_lt (root_lt h.fits) hwalk) ?_ s
      by_cases hroot : node = 0
      · exact Or.inl hroot
      · exact Or.inr (used_of_walk h.fits hwalk hroot)

/-- What follows a key in a text does not go on with a trailing byte. -/
theorem head_not_trailing {key rest : Bytes} (hkey : key ∈ keys)
    (htext : ValidUtf8 (key ++ rest)) : rest.head?.any (fun c => c &&& 0xc0 = 0x80) = false := by
  have hrest := (isValidUtf8_iff.mp (h.valid key hkey)).1.of_append_left htext
  cases rest with
  | nil => rfl
  | cons c rest =>
    have hc := hrest.not_isTrailing_head
    rw [List.head?_cons, Option.any_some, decide_eq_false_iff_not, ← isTrailing_iff_and, hc]
    exact Bool.false_ne_true

/-- **The loop of `CommonPrefixSearch`**, behind the bytes `key`. The text that it
goes through is a text as a whole, so that no key ends inside of a
character. -/
theorem prefixLoop_apply {maximum : ℕ} {key rest : Bytes} {state : ℕ} {out : List PrefixMatch}
    {s : Status} (hwalk : d.walk 0 key = some state) (htext : ValidUtf8 (key ++ rest))
    (hnul : 0 ∉ rest) (hout : maximum ≠ 0 → out.length < maximum) :
    d.prefixLoop maximum state rest out s
      = some (firstOf maximum (out ++ rest.inits.tail.filterMap (fun r => d.find keys (key ++ r))),
        s) := by
  induction rest generalizing key state out with
  | nil =>
    rw [List.inits, List.tail_cons, List.filterMap_nil, List.append_nil, firstOf_of_lt hout]
    rfl
  | cons byte rest ih =>
    have hstate := walk_lt (root_lt h.fits) hwalk
    have hbyte : byte ≠ 0 := fun hzero => hnul (hzero ▸ List.mem_cons_self)
    have hnul' : 0 ∉ rest := fun hzero => hnul (List.mem_cons_of_mem _ hzero)
    have hwalk' : ∀ r, d.walk 0 (key ++ byte :: r)
        = (d.childOf state byte).bind (fun child => d.walk child r) := by
      intro r
      rw [walk_append, hwalk, Option.bind_some, walk_cons]
    rw [Impl.prefixLoop, bind_of_eq_some (h.step_apply hstate hbyte s), List.inits_cons,
      List.tail_cons]
    cases hchild : d.childOf state byte with
    | none =>
      have hnone : (rest.inits.map (fun r => byte :: r)).filterMap (fun r => d.find keys (key ++ r))
          = [] := by
        refine List.filterMap_eq_nil_iff.mpr (fun r hr => ?_)
        obtain ⟨r', -, rfl⟩ := List.mem_map.mp hr
        rw [h.find_eq, hwalk', hchild]
        rfl
      rw [hnone, List.append_nil, firstOf_of_lt hout]
      rfl
    | some child =>
      have hkey : d.walk 0 (key ++ [byte]) = some child := by rw [hwalk', hchild]; rfl
      have hused := used_of_childOf h.fits hstate hchild
      have hlist : (rest.inits.map (fun r => byte :: r)).filterMap (fun r => d.find keys (key ++ r))
          = (d.keyOf child).toList
            ++ rest.inits.tail.filterMap (fun r => d.find keys (key ++ [byte] ++ r)) := by
        have hhead : d.find keys (key ++ [byte]) = d.keyOf child := by rw [h.find_eq, hkey]; rfl
        rw [inits_eq_cons_tail rest, List.map_cons, List.filterMap_cons, hhead, List.tail_cons,
          List.filterMap_map]
        simp only [Function.comp_def, List.append_assoc, List.singleton_append]
        cases d.keyOf child <;> rfl
      have htext' : ValidUtf8 (key ++ [byte] ++ rest) := by
        rw [List.append_assoc]
        exact htext
      rw [hlist]
      dsimp only
      rw [bind_of_eq_some (h.matchNode_apply (childOf_eq_some.mp hchild).2.1 (Or.inr hused.2) s)]
      cases hm : d.keyOf child with
      | none => exact ih hkey htext' hnul' hout
      | some m =>
        have hmem : key ++ [byte] ∈ keys := h.mem_of_find (m := m) (by rw [h.find_eq, hkey]; exact hm)
        dsimp only
        rw [h.head_not_trailing hmem htext', if_neg Bool.false_ne_true, Option.toList_some,
          ← List.append_assoc]
        split
        · rename_i hmax
          rw [firstOf_append hmax.1 (by rw [List.length_append]; exact hmax.2)]
          rfl
        · rename_i hmax
          refine ih hkey htext' hnul' (fun hne => ?_)
          have hlt := hout hne
          have hnext : out.length + 1 ≠ maximum := fun heq => hmax ⟨hne, heq⟩
          rw [List.length_append, List.length_singleton]
          omega

/-- **`CommonPrefixSearch`** of a text finds the keys that it starts with. -/
theorem commonPrefixSearch_apply {q : Bytes} (hq : isValidUtf8 q = true) (maximum : ℕ) {s : Status}
    (hs : s.available = true) :
    d.commonPrefixSearch q maximum s = some (firstOf maximum (q.inits.filterMap (d.find keys)), s) := by
  have hlist : q.inits.filterMap (d.find keys) = q.inits.tail.filterMap (d.find keys) := by
    rw [inits_eq_cons_tail q, List.filterMap_cons, h.find_eq_none (Or.inl rfl), List.tail_cons]
  unfold Impl.commonPrefixSearch
  rw [bind_of_eq_some (isAvailable_apply s), hs, hq, hlist]
  cases q with
  | nil =>
    have hnil : firstOf maximum (([] : Bytes).inits.tail.filterMap (d.find keys)) = [] :=
      firstOf_of_lt Nat.pos_of_ne_zero
    rw [hnil]
    rfl
  | cons c q =>
    obtain ⟨htext, hnul⟩ := isValidUtf8_iff.mp hq
    have hloop : d.prefixLoop maximum 0 (c :: q) [] s
        = some (firstOf maximum ((c :: q).inits.tail.filterMap (d.find keys)), s) :=
      h.prefixLoop_apply (show d.walk 0 [] = some 0 from rfl) htext hnul Nat.pos_of_ne_zero
    rw [if_neg (by simp), bind_of_eq_some hloop, clearUnlessAvailable,
      bind_of_eq_some (isAvailable_apply s), if_pos hs]
    rfl

end Impl.Verified

/-- A load with verification verifies. -/
theorem verify_of_load {σ : SectionSort} {image : Image} {d : Impl} {s : Status}
    (h : load σ image true = some (some d, s)) :
    d.Fits ∧ d.verify ⟨true, ""⟩ = some (true, s) := by
  obtain ⟨found, s₁, hfound, h⟩ := exists_of_bind h
  cases found with
  | none => cases h
  | some d' =>
    obtain ⟨hd, -, rfl⟩ := fits_of_structureOf hfound
    obtain ⟨ok, s₂, hverify, h⟩ := exists_of_bind h
    cases ok with
    | false => cases h
    | true =>
      cases h
      exact ⟨hd, hverify⟩

/-- What `Load` leaves with its verification. -/
theorem load_eq_some {σ : SectionSort} {image : Image} {d : Impl} {s : Status}
    (h : load σ image true = some (some d, s)) :
    s.available = true ∧ ∃ keys, d.Verified keys := by
  obtain ⟨hd, hverify⟩ := verify_of_load h
  obtain ⟨rfl, hkeys⟩ := verified_of_verify hd hverify
  exact ⟨rfl, hkeys⟩

/-- **A dictionary that is loaded and verified is a set of keys**, numbered in
their order. `ExactMatch` finds exactly the keys; `CommonPrefixSearch` of a
text finds the keys that it starts with, the shorter first, and of what is not
a text nothing. None of them changes the status. -/
theorem load_refines_keys {σ : SectionSort} {image : Image} {d : Impl} {s : Status}
    (h : load σ image true = some (some d, s)) :
    s.available = true ∧ ∃ keys : List Bytes,
      keys.Pairwise (· < ·) ∧ (∀ key ∈ keys, ValidUtf8 key ∧ 0 ∉ key)
        ∧ ∀ q : Bytes, d.exactMatch q s = some (d.find keys q, s)
          ∧ ∀ maximum : ℕ,
            (ValidUtf8 q ∧ 0 ∉ q → d.commonPrefixSearch q maximum s
              = some (firstOf maximum (q.inits.filterMap (d.find keys)), s))
            ∧ (¬ (ValidUtf8 q ∧ 0 ∉ q) → d.commonPrefixSearch q maximum s = some ([], s)) := by
  obtain ⟨hs, keys, hkeys⟩ := load_eq_some h
  refine ⟨hs, keys, hkeys.sorted, fun key hkey => isValidUtf8_iff.mp (hkeys.valid key hkey),
    fun q => ⟨hkeys.exactMatch_apply q hs, fun maximum => ⟨fun hq => ?_, fun hq => ?_⟩⟩⟩
  · exact hkeys.commonPrefixSearch_apply (isValidUtf8_iff.mpr hq) maximum hs
  · have hinvalid : isValidUtf8 q = false := Bool.eq_false_iff.mpr (fun hq' => hq (isValidUtf8_iff.mp hq'))
    unfold Impl.commonPrefixSearch
    rw [bind_of_eq_some (isAvailable_apply s), hinvalid, if_pos (by simp)]
    rfl

/-- An image with a root and one key. -/
def oneEntryImage : Image :=
  imageOf (pack (oneEntrySections (packNode 0 0 noNode 0 ++ packNode 0 0 0 1)) 0 1 1)

/-- The queries that the image with one key is asked: a key, and what starts
with it and is not a text. -/
theorem oneEntryImage_answers : ((load .insertion oneEntryImage true).any (fun r => r.1.any (fun d =>
    (d.exactMatch [1] r.2).any (fun x => x.1.isSome)
      && (d.commonPrefixSearch [1, 0xff] 0 r.2).any (fun x => x.1.isEmpty)))) = true := by
  decide +kernel

/-- The image with one key is loaded. -/
theorem load_oneEntryImage : ∃ d s, load .insertion oneEntryImage true = some (some d, s)
    ∧ (d.exactMatch [1] s).any (fun x => x.1.isSome) = true
    ∧ (d.commonPrefixSearch [1, 0xff] 0 s).any (fun x => x.1.isEmpty) = true := by
  obtain ⟨⟨r, s⟩, hload, hr⟩ := (Option.any_eq_true _ _).mp oneEntryImage_answers
  obtain ⟨d, rfl, hd⟩ := (Option.any_eq_true _ _).mp hr
  exact ⟨d, s, hload, Bool.and_eq_true_iff.mp hd⟩

/-- The laws hold of the image with one key. -/
theorem load_refines_keys_oneEntry : ∃ d s, load .insertion oneEntryImage true = some (some d, s)
    ∧ s.available = true ∧ ∃ keys : List Bytes,
      keys.Pairwise (· < ·) ∧ (∀ key ∈ keys, ValidUtf8 key ∧ 0 ∉ key)
        ∧ ∀ q : Bytes, d.exactMatch q s = some (d.find keys q, s)
          ∧ ∀ maximum : ℕ,
            (ValidUtf8 q ∧ 0 ∉ q → d.commonPrefixSearch q maximum s
              = some (firstOf maximum (q.inits.filterMap (d.find keys)), s))
            ∧ (¬ (ValidUtf8 q ∧ 0 ∉ q) → d.commonPrefixSearch q maximum s = some ([], s)) := by
  obtain ⟨d, s, hload, -⟩ := load_oneEntryImage
  exact ⟨d, s, hload, load_refines_keys hload⟩

/-- **A key in front of what is not a text is not found**: `CommonPrefixSearch`
looks at the whole text first. -/
theorem commonPrefixSearch_invalid : ∃ d s, load .insertion oneEntryImage true = some (some d, s)
    ∧ ∀ keys : List Bytes, (∀ q, d.exactMatch q s = some (d.find keys q, s)) →
      d.commonPrefixSearch [1, 0xff] 0 s
        ≠ some (([1, 0xff] : Bytes).inits.filterMap (d.find keys), s) := by
  obtain ⟨d, s, hload, hexact, hprefix⟩ := load_oneEntryImage
  refine ⟨d, s, hload, fun keys hkeys heq => ?_⟩
  rw [hkeys, Option.any_some] at hexact
  rw [heq, Option.any_some, List.isEmpty_iff] at hprefix
  have hnone := List.filterMap_eq_nil_iff.mp hprefix [1] (by decide)
  rw [hnone] at hexact
  cases hexact

end AzooKey.Core.Dictionary

import Mathlib.Algebra.Order.Group.Int
import Mathlib.Data.List.DropRight

/-!
# Counters with a key

A counter that belongs to a key counts some of the events of its key, goes back to zero
at others, and starts anew at an event of another key. What it holds after a run is read
off the run: it is the number of counted events behind the last one that has cleared it
or had another key (`foldl_count`).
-/

/-- A counter, and the key it belongs to. -/
structure KeyedCounter (κ : Type*) where
  key : κ
  count : ℤ

namespace KeyedCounter

variable {κ ε : Type*} [DecidableEq κ] (key : ε → κ) (counts clears : ε → Bool)

/-- What an event does to a counter. -/
def step (c : KeyedCounter κ) (e : ε) : KeyedCounter κ where
  key := key e
  count :=
    let n := if c.key = key e then c.count else 0
    if counts e then n + 1 else if clears e then 0 else n

/-- The events behind the last one that has cleared the counter or had another key. -/
def recent (k : κ) (events : List ε) : List ε :=
  events.rtakeWhile (fun e => key e = k && !clears e)

variable {key counts clears}

/-- The recent events with one event more. -/
theorem recent_concat (k : κ) (events : List ε) (e : ε) :
    recent key clears k (events ++ [e])
      = if key e = k ∧ clears e = false then recent key clears k events ++ [e] else [] := by
  rw [recent, List.rtakeWhile_concat]
  simp only [Bool.and_eq_true, decide_eq_true_eq, Bool.not_eq_true']
  rfl

/-- The key is the one of the last event. -/
theorem foldl_key (c : KeyedCounter κ) (events : List ε) :
    (events.foldl (step key counts clears) c).key = (events.getLast?.map key).getD c.key := by
  induction events using List.reverseRecOn with
  | nil => rfl
  | append_singleton events e =>
    rw [List.foldl_append, List.getLast?_concat]
    rfl

/-- Behind an event of another key nothing is recent. -/
theorem recent_of_key_ne {c : KeyedCounter κ} {events : List ε} {k : κ}
    (h : (events.foldl (step key counts clears) c).key ≠ k) : recent key clears k events = [] := by
  rw [foldl_key] at h
  induction events using List.reverseRecOn with
  | nil => rfl
  | append_singleton events e =>
    rw [List.getLast?_concat] at h
    rw [recent_concat, if_neg (fun hrecent => h hrecent.1)]

/-- **What a counter holds** after a run: the number of the recent events that count, and
what it held before if all of them are recent. -/
theorem foldl_count (hclears : ∀ e, counts e = true → clears e = false) (c : KeyedCounter κ)
    (events : List ε) {k : κ} (hk : (events.foldl (step key counts clears) c).key = k) :
    (events.foldl (step key counts clears) c).count
      = (recent key clears k events).countP counts
        + if (recent key clears k events).length = events.length ∧ c.key = k then c.count
          else 0 := by
  induction events using List.reverseRecOn generalizing k with
  | nil =>
    rw [if_pos ⟨rfl, hk⟩]
    exact (Int.zero_add _).symm
  | append_singleton events e ih =>
    rw [List.foldl_append] at hk ⊢
    obtain rfl : key e = k := hk
    generalize hlast : events.foldl (step key counts clears) c = last at ih
    have hstep : ([e].foldl (step key counts clears) last).count
        = if counts e then (if last.key = key e then last.count else 0) + 1
          else if clears e then 0 else if last.key = key e then last.count else 0 := rfl
    rw [hstep]
    cases hclear : clears e with
    | true =>
      have hcount : counts e = false := by
        cases h : counts e with
        | false => rfl
        | true => exact absurd (hclears e h) (by rw [hclear]; decide)
      have hnone : recent key clears (key e) (events ++ [e]) = [] := by
        rw [recent_concat, if_neg (fun hrecent => absurd hrecent.2 (by rw [hclear]; decide))]
      rw [hcount, hnone]
      simp
    | false =>
      have hlength : (recent key clears (key e) events ++ [e]).length = (events ++ [e]).length
          ↔ (recent key clears (key e) events).length = events.length := by
        rw [List.length_append, List.length_append, Nat.add_right_cancel_iff]
      have hcount : ((recent key clears (key e) events ++ [e]).countP counts : ℤ)
          = (recent key clears (key e) events).countP counts + if counts e then 1 else 0 := by
        rw [List.countP_append, List.countP_singleton, Int.natCast_add]
        split_ifs <;> rfl
      have hmore : recent key clears (key e) (events ++ [e])
          = recent key clears (key e) events ++ [e] := by
        rw [recent_concat, if_pos ⟨rfl, hclear⟩]
      rw [hmore, hcount]
      simp only [hlength, Bool.false_eq_true, if_false]
      by_cases hkey : last.key = key e
      · rw [if_pos hkey, ih hkey]
        split_ifs <;> omega
      · -- the counter starts anew
        have hnone : recent key clears (key e) events = [] :=
          @recent_of_key_ne _ _ _ key counts clears c events _ (hlast ▸ hkey)
        have hold : ¬((recent key clears (key e) events).length = events.length
            ∧ c.key = key e) := by
          rintro ⟨hall, hstart⟩
          rw [hnone] at hall
          rw [List.eq_nil_of_length_eq_zero hall.symm] at hlast
          exact hkey (hlast ▸ hstart)
        rw [if_neg hkey, if_neg hold, hnone]
        split_ifs <;> rfl

end KeyedCounter

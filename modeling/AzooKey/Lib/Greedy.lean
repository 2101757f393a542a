import Mathlib

/-!
# Greedy rewriting, in one piece and as a stream

A greedy rewriter reads a list from the front: at each point it prints
something and consumes one symbol or more, and what it does depends on all
that is left. `batch` runs it over a whole list.

The same rewriter can be run on a list that arrives symbol by symbol. It
then sees only a prefix of what is left, the *pending* symbols, and must
wait while the symbols still to come could change its mind; `hold` says when
it waits. `drain` rewrites the pending symbols until it has to wait,
`feed` adds one symbol and drains, and at the end the pending symbols are
rewritten as they stand.

The two agree (`batch_eq_stream`) as soon as a decision taken without waiting
is the decision the whole list would have led to, which is the field
`stable` of `GreedyRewriter`. Nothing else about the rules matters.
-/

/-- **A greedy rewriter with a waiting rule.** -/
structure GreedyRewriter (α β : Type*) where
  /-- What is printed for the symbols left, and how many are consumed. -/
  step : List α → List β × ℕ
  /-- Whether the rewriter waits for more symbols. -/
  hold : List α → Bool
  /-- Something is consumed. -/
  step_pos : ∀ p, p ≠ [] → 1 ≤ (step p).2
  /-- What is consumed was there. -/
  step_le : ∀ p, p ≠ [] → (step p).2 ≤ p.length
  /-- A decision taken without waiting stands whatever follows. -/
  stable : ∀ p s, p ≠ [] → hold p = false → step (p ++ s) = step p

namespace GreedyRewriter

variable {α β : Type*} (G : GreedyRewriter α β)

/-- The whole list rewritten from its front. -/
def batch (p : List α) : List β :=
  if _h : p = [] then [] else (G.step p).1 ++ batch (p.drop (G.step p).2)
termination_by p.length
decreasing_by
  have := G.step_pos p _h
  have := List.length_pos_iff.mpr _h
  rw [List.length_drop]
  omega

/-- The pending symbols rewritten until the rewriter waits: what is printed,
and what stays pending. -/
def drain (p : List α) : List β × List α :=
  if _h : p = [] then ([], [])
  else if G.hold p then ([], p)
  else ((G.step p).1 ++ (drain (p.drop (G.step p).2)).1, (drain (p.drop (G.step p).2)).2)
termination_by p.length
decreasing_by
  all_goals
    have := G.step_pos p _h
    have := List.length_pos_iff.mpr _h
    rw [List.length_drop]
    omega

/-- One symbol more, then drain. -/
def feed (p : List α) (a : α) : List β × List α := G.drain (p ++ [a])

/-- Symbols fed one after the other: all that is printed, and what stays
pending. -/
def feedAll : List α → List α → List β × List α
  | p, [] => ([], p)
  | p, a :: s => ((G.feed p a).1 ++ (feedAll (G.feed p a).2 s).1, (feedAll (G.feed p a).2 s).2)

@[simp] theorem batch_nil : G.batch [] = [] := by
  rw [batch, dif_pos rfl]

/-- What stays pending after a drain is nothing, or something the rewriter
waits on. -/
theorem drain_pending (p : List α) : (G.drain p).2 = [] ∨ G.hold (G.drain p).2 = true := by
  induction p using drain.induct G with
  | case1 => rw [drain, dif_pos rfl]; exact Or.inl rfl
  | case2 p hp hhold => rw [drain, dif_neg hp, if_pos hhold]; exact Or.inr hhold
  | case3 p hp hhold ih => rw [drain, dif_neg hp, if_neg hhold]; exact ih

/-- **Draining takes the first steps of the batch run**, whatever follows the
pending symbols. -/
theorem batch_drain (p s : List α) :
    G.batch (p ++ s) = (G.drain p).1 ++ G.batch ((G.drain p).2 ++ s) := by
  induction p using drain.induct G with
  | case1 => rw [drain, dif_pos rfl]; rfl
  | case2 p hp hhold => rw [drain, dif_neg hp, if_pos hhold]; rfl
  | case3 p hp hhold ih =>
    have hstep := G.stable p s hp (by simpa using hhold)
    have hdrop : (p ++ s).drop (G.step p).2 = p.drop (G.step p).2 ++ s :=
      List.drop_append_of_le_length (G.step_le p hp)
    rw [drain, dif_neg hp, if_neg hhold, batch, dif_neg (by simp [hp]), hstep, hdrop, ih,
      List.append_assoc]

/-- **Feeding a list is rewriting it, up to what stays pending.** -/
theorem batch_feedAll (p s : List α) :
    G.batch (p ++ s) = (G.feedAll p s).1 ++ G.batch (G.feedAll p s).2 := by
  induction s generalizing p with
  | nil => rw [List.append_nil]; rfl
  | cons a s ih =>
    calc G.batch (p ++ a :: s)
        = G.batch ((p ++ [a]) ++ s) := by rw [List.append_assoc]; rfl
      _ = (G.feed p a).1 ++ G.batch ((G.feed p a).2 ++ s) := G.batch_drain _ _
      _ = _ := by rw [ih, feedAll, List.append_assoc]

/-- **The stream and the batch run print the same.** -/
theorem batch_eq_stream (s : List α) :
    G.batch s = (G.feedAll [] s).1 ++ G.batch (G.feedAll [] s).2 :=
  G.batch_feedAll [] s

/-- After feeding a non-empty list, the pending symbols are none or held. -/
theorem feedAll_pending (p s : List α) (hp : p = [] ∨ G.hold p = true) :
    (G.feedAll p s).2 = [] ∨ G.hold (G.feedAll p s).2 = true := by
  induction s generalizing p with
  | nil => exact hp
  | cons a s ih => exact ih _ (G.drain_pending _)

end GreedyRewriter

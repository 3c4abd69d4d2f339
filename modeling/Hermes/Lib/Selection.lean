import Mathlib.Data.List.MinMax

/-!
# Selection loops

A loop that keeps the largest value so far, with what belongs to it, finds the `largest` of the
candidates above the start value. A loop that looks for the first element of the least value finds
`List.argmin`. A loop that keeps the largest value so far until one is enough, and then every further one
that is enough, ends with the last that is enough (`enoughOrLargest`).
-/

namespace Selection

variable {α β κ : Type*} [LinearOrder κ] {f : α → κ} {l : List α}

/-- One round: an admitted element with a larger value than the one kept replaces it. -/
def keepLarger (ok : α → Prop) [DecidablePred ok] (f : α → κ) (g : α → β) (kept : κ × β) (a : α) :
    κ × β :=
  if ok a ∧ kept.1 < f a then (f a, g a) else kept

variable {ok : α → Prop} [DecidablePred ok] {g : α → β} {start : κ} {unset : β}

/-- The admitted elements with a value above the start. -/
def candidates (ok : α → Prop) [DecidablePred ok] (f : α → κ) (start : κ) (l : List α) : List α :=
  l.filter fun a => ok a ∧ start < f a

@[simp] theorem mem_candidates {a : α} :
    a ∈ candidates ok f start l ↔ a ∈ l ∧ ok a ∧ start < f a := by
  simp [candidates]

theorem candidates_concat (l : List α) (a : α) :
    candidates ok f start (l ++ [a]) =
      candidates ok f start l ++ if ok a ∧ start < f a then [a] else [] := by
  by_cases ha : ok a ∧ start < f a <;> simp [candidates, List.filter_append, ha]

/-- The first candidate of the largest value. -/
def largest (ok : α → Prop) [DecidablePred ok] (f : α → κ) (start : κ) (l : List α) : Option α :=
  (candidates ok f start l).argmax f

theorem largest_some {a : α} (h : largest ok f start l = some a) : a ∈ l ∧ ok a ∧ start < f a :=
  mem_candidates.mp (List.argmax_mem h)

theorem largest_eq_none : largest ok f start l = none ↔ ∀ a ∈ l, ok a → f a ≤ start := by
  rw [largest, List.argmax_eq_none, List.eq_nil_iff_forall_not_mem]
  simp only [mem_candidates, not_and, not_lt]

theorem foldl_keepLarger (l : List α) :
    l.foldl (keepLarger ok f g) (start, unset) =
      (largest ok f start l).elim (start, unset) fun a => (f a, g a) := by
  unfold largest
  induction l using List.reverseRecOn with
  | nil => rfl
  | append_singleton l a ih =>
    rw [List.foldl_append, List.foldl_cons, List.foldl_nil, ih, candidates_concat]
    cases hkept : (candidates ok f start l).argmax f with
    | none =>
      -- no candidate so far: the value to beat is still the start
      rw [List.argmax_eq_none.mp hkept]
      by_cases ha : ok a ∧ start < f a
      · simp [keepLarger, ha]
      · simp [keepLarger, ha]
    | some b =>
      have hstart : start < f b := (mem_candidates.mp (List.argmax_mem hkept)).2.2
      by_cases ha : ok a ∧ start < f a
      · rw [if_pos ha, List.argmax_concat, hkept]
        by_cases hgt : f b < f a
        · simp [keepLarger, ha.1, hgt]
        · simp [keepLarger, hgt]
      · have hkeep : ¬ (ok a ∧ f b < f a) := fun h => ha ⟨h.1, hstart.trans h.2⟩
        simp [keepLarger, hkeep, ha, hkept]

/-- The first element whose value is a lower bound of the values. -/
theorem find?_eq_argmin {m : κ} (hle : ∀ a ∈ l, m ≤ f a) (hmem : ∃ a ∈ l, f a = m) :
    l.find? (fun a => f a = m) = l.argmin f := by
  induction l with
  | nil => rfl
  | cons a l ih =>
    rw [List.argmin_cons]
    by_cases ha : f a = m
    · cases hmin : l.argmin f with
      | none => simp [ha]
      | some b =>
        have hb : m ≤ f b := hle b (List.mem_cons_of_mem _ (List.argmin_mem hmin))
        simp [ha, not_lt.mpr hb]
    · obtain ⟨c, hc, hcm⟩ := hmem
      have hcl : c ∈ l := (List.mem_cons.mp hc).resolve_left (by rintro rfl; exact ha hcm)
      have hrest := ih (fun b hb => hle b (List.mem_cons_of_mem _ hb)) ⟨c, hcl, hcm⟩
      cases hmin : l.argmin f with
      | none => simp [List.argmin_eq_none.mp hmin] at hcl
      | some b =>
        rw [hmin] at hrest
        have hb : f b = m := by simpa using List.find?_some hrest
        have hlt : f b < f a := hb ▸ lt_of_le_of_ne (hle a List.mem_cons_self) (Ne.symm ha)
        simp [ha, hrest, hlt]

/-! ### The last that is enough, else the first largest -/

variable {enough : κ}

/-- One round: an element whose value is enough replaces the one kept, any other only a smaller one. -/
def keepEnough (enough : κ) (f : α → κ) (kept : Option α) (a : α) : Option α :=
  if enough ≤ f a then some a
  else
    match kept with
    | none => some a
    | some b => if f b < f a then some a else some b

/-- The last element whose value is enough. -/
def lastEnough (enough : κ) (f : α → κ) (l : List α) : Option α :=
  l.reverse.find? fun a => enough ≤ f a

/-- The last element whose value is enough if there is one, else the first one of the largest value. -/
def enoughOrLargest (enough : κ) (f : α → κ) (l : List α) : Option α :=
  (lastEnough enough f l).or (l.argmax f)

theorem lastEnough_concat (l : List α) (a : α) :
    lastEnough enough f (l ++ [a]) = if enough ≤ f a then some a else lastEnough enough f l := by
  by_cases ha : enough ≤ f a <;> simp [lastEnough, ha]

theorem foldl_keepEnough (l : List α) :
    l.foldl (keepEnough enough f) none = enoughOrLargest enough f l := by
  induction l using List.reverseRecOn with
  | nil => rfl
  | append_singleton l a ih =>
    rw [List.foldl_append, List.foldl_cons, List.foldl_nil, ih, enoughOrLargest, enoughOrLargest,
      lastEnough_concat]
    by_cases ha : enough ≤ f a
    · simp [keepEnough, ha]
    · rw [if_neg ha]
      cases hlast : lastEnough enough f l with
      | none =>
        -- nothing is enough so far: the kept one is the first largest
        rw [List.argmax_concat]
        cases l.argmax f <;> simp [keepEnough, ha]
      | some b =>
        have hb : enough ≤ f b := by simpa using List.find?_some hlast
        have hle : ¬ f b < f a := fun hlt => ha (hb.trans hlt.le)
        simp [keepEnough, ha, hle]

/-- An element that is passed over is passed over by every later one that is kept. -/
theorem keepEnough_skips {kept : Option α} {a : α} (h : keepEnough enough f kept a = kept)
    (ha : kept ≠ some a) (a' : α) :
    keepEnough enough f (keepEnough enough f kept a') a = keepEnough enough f kept a' := by
  by_cases henough : enough ≤ f a
  · simp only [keepEnough, if_pos henough] at h
    exact absurd h.symm ha
  cases kept with
  | none => simp [keepEnough, henough] at h
  | some b =>
    have hle : f a ≤ f b := by
      by_contra hlt
      simp only [keepEnough, if_neg henough, if_pos (not_le.mp hlt)] at h
      exact ha h.symm
    have hskip {b' : α} (hb' : f a ≤ f b') : keepEnough enough f (some b') a = some b' := by
      simp [keepEnough, henough, not_lt.mpr hb']
    by_cases henough' : enough ≤ f a'
    · simp only [keepEnough, if_pos henough']
      exact hskip ((not_le.mp henough).le.trans henough')
    by_cases hlarger : f b < f a'
    · simp only [keepEnough, if_neg henough', if_pos hlarger]
      exact hskip (hle.trans hlarger.le)
    · simp only [keepEnough, if_neg henough', if_neg hlarger]
      exact hskip hle

theorem enoughOrLargest_ne_none (hl : l ≠ []) : enoughOrLargest enough f l ≠ none := by
  intro h
  have hmax := (Option.or_eq_none_iff.mp h).2
  exact hl (List.argmax_eq_none.mp hmax)

end Selection

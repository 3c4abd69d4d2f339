import Mathlib.Data.List.DropRight

/-!
# Fields and lines

What string libraries make of a list with separators, in terms of `List.splitOn`. `split` keeps the
empty fields except those at the end; `tokens` keeps no empty field. `readLines` reads a list through a
buffer: a line at a time, and a line that is longer than the buffer in parts.
-/

namespace Fields

variable {α : Type} [DecidableEq α] {sep : α} {l : List α}

/-- The fields hold everything but the separators. -/
theorem flatten_splitOn : (l.splitOn sep).flatten = l.filter (· ≠ sep) := by
  induction l with
  | nil => rfl
  | cons x l ih =>
    rw [List.splitOn_cons_eq_if_modifyHead]
    by_cases hx : x = sep
    · simpa [hx] using ih
    · obtain ⟨field, fields, hl⟩ := List.exists_cons_of_ne_nil (List.splitOn_ne_nil sep l)
      rw [hl] at ih
      simpa [hx, hl] using ih

/-! ### Splitting without the empty fields at the end -/

/-- The fields without the empty ones at the end. A list without a separator is one field, also when it
is empty. -/
def split (sep : α) (l : List α) : List (List α) :=
  if sep ∈ l then (l.splitOn sep).rdropWhile List.isEmpty else [l]

theorem split_prefix : split sep l <+: l.splitOn sep := by
  unfold split
  split
  · exact List.rdropWhile_prefix ..
  · next h => exact List.splitOn_eq_singleton h ▸ List.prefix_rfl

theorem getElem?_splitOn {k : ℕ} {field : List α} (h : (split sep l)[k]? = some field) :
    (l.splitOn sep)[k]? = some field := by
  obtain ⟨rest, hrest⟩ : split sep l <+: l.splitOn sep := split_prefix
  rw [← hrest, List.getElem?_append_left (List.getElem?_eq_some_iff.mp h).1, h]

/-- Only empty fields are lost. -/
theorem getElem?_split {k : ℕ} {field : List α} (hf : field ≠ [])
    (h : (l.splitOn sep)[k]? = some field) : (split sep l)[k]? = some field := by
  unfold split
  split
  · rw [← List.rdropWhile_append_rtakeWhile (p := List.isEmpty) (l := l.splitOn sep),
      List.getElem?_append] at h
    split at h
    · exact h
    · have := List.mem_rtakeWhile_imp (List.mem_of_getElem? h)
      exact absurd (List.isEmpty_iff.mp this) hf
  · next hs => rwa [List.splitOn_eq_singleton hs] at h

/-- What is read from the fields is the same where nothing is read from an empty field. -/
theorem bind_getElem?_split {β : Type} {read : List α → Option β} (h : read [] = none) (k : ℕ) :
    (split sep l)[k]?.bind read = (l.splitOn sep)[k]?.bind read := by
  cases hk : (split sep l)[k]? with
  | some field => rw [getElem?_splitOn hk]
  | none =>
    cases hk' : (l.splitOn sep)[k]? with
    | none => rfl
    | some field =>
      by_cases hf : field = []
      · rw [hf]
        exact h.symm
      · rw [getElem?_split hf hk'] at hk
        cases hk

/-- There is no field in a list of separators only. -/
theorem split_eq_nil_iff : split sep l = [] ↔ l ≠ [] ∧ ∀ x ∈ l, x = sep := by
  have hfields : (∀ field ∈ l.splitOn sep, field.isEmpty) ↔ ∀ x ∈ l, x = sep := by
    simp only [List.isEmpty_iff]
    rw [← List.flatten_eq_nil_iff, flatten_splitOn]
    simp
  unfold split
  split
  · next h =>
    rw [List.rdropWhile_eq_nil_iff, hfields]
    exact (and_iff_right (List.ne_nil_of_mem h)).symm
  · next h =>
    refine iff_of_false (by simp) fun ⟨hl, hall⟩ => h ?_
    obtain ⟨x, l, rfl⟩ := List.exists_cons_of_ne_nil hl
    exact hall x List.mem_cons_self ▸ List.mem_cons_self

/-! ### Tokens -/

/-- The fields that are not empty. -/
def tokens (sep : α) (l : List α) : List (List α) := (l.splitOn sep).filter (!·.isEmpty)

theorem flatten_tokens : (tokens sep l).flatten = l.filter (· ≠ sep) := by
  rw [tokens, List.flatten_filter_not_isEmpty, flatten_splitOn]

theorem flatten_tokens_sublist : (tokens sep l).flatten.Sublist l := by
  rw [flatten_tokens]
  exact List.filter_sublist

/-- Fields that are not empty and have no separator are the tokens of the list they are joined to. -/
theorem tokens_intercalate {fields : List (List α)} (hne : fields ≠ [])
    (h : ∀ field ∈ fields, field ≠ [] ∧ sep ∉ field) : tokens sep ([sep].intercalate fields) = fields := by
  rw [tokens, List.splitOn_intercalate sep (fun field hf => (h field hf).2) hne, List.filter_eq_self]
  intro field hf
  simpa using (h field hf).1

omit [DecidableEq α] in
theorem mem_intercalate {x : α} {fields : List (List α)} (h : x ∈ [sep].intercalate fields) :
    x = sep ∨ ∃ field ∈ fields, x ∈ field := by
  induction fields with
  | nil => cases h
  | cons field fields ih =>
    by_cases hf : fields = []
    · subst hf
      rw [List.intercalate_singleton] at h
      exact .inr ⟨field, List.mem_cons_self, h⟩
    · rw [List.intercalate_cons_of_ne_nil hf, List.mem_append, List.mem_append, List.mem_singleton] at h
      obtain (h | h) | h := h
      · exact .inr ⟨field, List.mem_cons_self, h⟩
      · exact .inl h
      · exact (ih h).imp_right fun ⟨f, hmem, hx⟩ => ⟨f, List.mem_cons_of_mem _ hmem, hx⟩

omit [DecidableEq α] in
/-- A field without a separator ends at the first one. -/
theorem append_sep_inj {field field' rest rest' : List α} (h : sep ∉ field) (h' : sep ∉ field')
    (heq : field ++ sep :: rest = field' ++ sep :: rest') : field = field' ∧ rest = rest' := by
  induction field generalizing field' with
  | nil =>
    cases field' with
    | nil => exact ⟨rfl, (List.cons.inj heq).2⟩
    | cons x field' => exact absurd ((List.cons.inj heq).1 ▸ List.mem_cons_self) h'
  | cons x field ih =>
    cases field' with
    | nil => exact absurd ((List.cons.inj heq).1 ▸ List.mem_cons_self) h
    | cons y field' =>
      obtain ⟨rfl, htail⟩ := List.cons.inj heq
      obtain ⟨rfl, hrest⟩ := ih (fun hmem => h (List.mem_cons_of_mem _ hmem))
        (fun hmem => h' (List.mem_cons_of_mem _ hmem)) htail
      exact ⟨rfl, hrest⟩

omit [DecidableEq α] in
theorem intercalate_concat_append (fields : List (List α)) (last l : List α) :
    [sep].intercalate (fields ++ [last]) ++ l = [sep].intercalate (fields ++ [last ++ l]) := by
  induction fields with
  | nil => simp
  | cons field fields ih =>
    rw [List.cons_append, List.cons_append, List.intercalate_cons_of_ne_nil (by simp),
      List.intercalate_cons_of_ne_nil (by simp), List.append_assoc _ _ l, ih]

/-! ### Reading lines -/

/-- Up to `size` elements, or to the end of a line, and the rest. -/
def readLine (stop : α) : ℕ → List α → List α × List α
  | 0, l => ([], l)
  | _ + 1, [] => ([], [])
  | size + 1, x :: l =>
    if x = stop then ([x], l) else Prod.map (x :: ·) id (readLine stop size l)

theorem readLine_append (stop : α) (size : ℕ) (l : List α) :
    (readLine stop size l).1 ++ (readLine stop size l).2 = l := by
  induction size, l using readLine.induct stop with
  | case1 l => rfl
  | case2 => rfl
  | case3 size l => simp [readLine]
  | case4 size x l h ih => simpa [readLine, h] using ih

theorem length_readLine (stop : α) (size : ℕ) (h : l ≠ []) :
    (readLine stop (size + 1) l).2.length < l.length := by
  obtain ⟨x, l, rfl⟩ := List.exists_cons_of_ne_nil h
  unfold readLine
  split
  · exact Nat.lt_succ_self _
  · have := congrArg List.length (readLine_append stop size l)
    rw [List.length_append] at this
    exact Nat.lt_succ_of_le (by simpa using by omega)

/-- The loop that reads up to `size + 1` elements at a time, to the end. -/
def readLines (stop : α) (size : ℕ) (l : List α) : List (List α) :=
  if h : l = [] then []
  else (readLine stop (size + 1) l).1 :: readLines stop size (readLine stop (size + 1) l).2
termination_by l.length
decreasing_by exact length_readLine stop size h

theorem flatten_readLines (stop : α) (size : ℕ) (l : List α) : (readLines stop size l).flatten = l := by
  fun_induction readLines stop size l with
  | case1 => rfl
  | case2 l h ih => rw [List.flatten_cons, ih, readLine_append]

theorem readLine_line {stop : α} {size : ℕ} {body : List α} (h : stop ∉ body) (hsize : body.length < size) :
    readLine stop size (body ++ [stop]) = (body ++ [stop], []) := by
  induction body generalizing size with
  | nil =>
    obtain ⟨size, rfl⟩ := Nat.exists_eq_succ_of_ne_zero (Nat.ne_of_gt hsize)
    simp [readLine]
  | cons x body ih =>
    obtain ⟨size, rfl⟩ := Nat.exists_eq_succ_of_ne_zero (Nat.ne_of_gt (Nat.zero_lt_of_lt hsize))
    obtain ⟨hx, hbody⟩ := not_or.mp fun hmem => h (List.mem_cons.mpr hmem)
    simp [readLine, Ne.symm hx, ih hbody (Nat.lt_of_succ_lt_succ hsize)]

/-- One line that fits is read at once. -/
theorem readLines_line {stop : α} {size : ℕ} {body : List α} (h : stop ∉ body) (hsize : body.length ≤ size) :
    readLines stop size (body ++ [stop]) = [body ++ [stop]] := by
  rw [readLines, dif_neg (by simp), readLine_line h (Nat.lt_succ_of_le hsize), readLines, dif_pos rfl]

/-- What is made of the lines one by one holds nothing that is not in the list, if this is so for each
line. -/
theorem flatMap_readLines_sublist {f : List α → List (List α)} (hf : ∀ line, (f line).flatten.Sublist line)
    (stop : α) (size : ℕ) (l : List α) : ((readLines stop size l).flatMap f).flatten.Sublist l := by
  have hlines (lines : List (List α)) : (lines.flatMap f).flatten.Sublist lines.flatten := by
    induction lines with
    | nil => exact List.Sublist.refl _
    | cons line lines ih =>
      rw [List.flatMap_cons, List.flatten_append, List.flatten_cons]
      exact (hf line).append ih
  have := hlines (readLines stop size l)
  rwa [flatten_readLines] at this

end Fields

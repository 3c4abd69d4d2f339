import Hermes.Trade.Settlement
import Hermes.Lib.Selection

/-!
# The entry that is chosen

What the scan of `Manager.run` comes to, over the entries it may take (`offers`): the first perfect match
if there is one (`scan_eq`); else the last offer that covers the need, else the first of the largest.

The loop is a fold over these entries that keeps one of them (`Selection.keepEnough`), broken off at a
perfect match. An offer that does not cover the need never displaces one that does, because it is smaller.
-/

namespace Hermes

namespace Manager

variable {heap : Ref → Entry} {current best : Ref} {m m' : Market} {rest : List Ref}

instance (heap : Ref → Entry) (current : Ref) : DecidablePred (Eligible heap current) :=
  fun entry => inferInstanceAs (Decidable (_ ≠ _ ∧ Matches (heap current) (heap entry)))

instance (heap : Ref → Entry) (current : Ref) : DecidablePred (Perfect heap current) :=
  fun _ => inferInstanceAs (Decidable (_ ∧ _))

/-- The entries of the queue that the scan may take, in queue order. -/
def offers (heap : Ref → Entry) (current : Ref) (entries : List Ref) : List Ref :=
  entries.filter (Eligible heap current)

/-- `bestOffer` when the loop is left. -/
def Scan.bestOffer : Scan → Option Ref
  | .perfect entry => some entry
  | .best b => b

/-! ### The scan as a selection -/

/-- Of the entries it may take, a round breaks off at a perfect match and otherwise keeps one. -/
theorem consider_of_eligible {b : Option Ref} {entry : Ref} (h : Eligible heap current entry) :
    consider heap current b entry =
      if Perfect heap current entry then .perfect entry
      else .best (Selection.keepEnough (heap current).need.amount (fun e => (heap e).offer.amount) b
        entry) := by
  unfold consider
  rw [if_neg h.1, if_pos h.2]
  by_cases hoffer : (heap current).need.amount ≤ (heap entry).offer.amount
  · by_cases hneed : (heap entry).need.amount ≤ (heap current).offer.amount
    · simp [Perfect, hoffer, hneed]
    · simp [Perfect, hoffer, hneed, Selection.keepEnough]
  · cases b with
    | none => simp [Perfect, hoffer, Selection.keepEnough]
    | some best =>
      by_cases hlarger : (heap best).offer.amount < (heap entry).offer.amount
      · simp [Perfect, hoffer, hlarger, Selection.keepEnough]
      · simp [Perfect, hoffer, hlarger, Selection.keepEnough]

/-- A round passes over every other entry. -/
theorem consider_of_not_eligible {b : Option Ref} {entry : Ref} (h : ¬ Eligible heap current entry) :
    consider heap current b entry = .best b := by
  unfold consider
  by_cases hcountry : (heap entry).country = (heap current).country
  · rw [if_pos hcountry]
  · have hmatch : ¬ Matches (heap current) (heap entry) := fun hm => h ⟨hcountry, hm⟩
    rw [if_neg hcountry, if_neg hmatch]

/-- What a scan has passed over it passes over after any further visit. -/
theorem consider_skips {b b' : Option Ref} {e e' : Ref} (h : consider heap current b e = .best b)
    (he : b ≠ some e) (hvisit : consider heap current b e' = .best b') :
    consider heap current b' e = .best b' := by
  by_cases helig : Eligible heap current e
  · rw [consider_of_eligible helig] at h ⊢
    split_ifs at h ⊢ with hperf
    have hkept := Selection.keepEnough_skips (Scan.best.inj h) he
    by_cases helig' : Eligible heap current e'
    · rw [consider_of_eligible helig'] at hvisit
      split_ifs at hvisit
      rw [← Scan.best.inj hvisit, hkept e']
    · rw [consider_of_not_eligible helig'] at hvisit
      rw [← Scan.best.inj hvisit, Scan.best.inj h]
  · exact consider_of_not_eligible helig

theorem scan_eq (b : Option Ref) (entries : List Ref) :
    scan heap current b entries =
      ((offers heap current entries).find? (Perfect heap current)).elim
        (.best ((offers heap current entries).foldl
          (Selection.keepEnough (heap current).need.amount fun e => (heap e).offer.amount) b))
        .perfect := by
  induction entries generalizing b with
  | nil => rfl
  | cons entry rest ih =>
    rw [scan]
    by_cases helig : Eligible heap current entry
    · rw [consider_of_eligible helig]
      by_cases hperf : Perfect heap current entry
      · simp [offers, helig, hperf]
      · simp only [hperf, if_false, ih]
        simp [offers, helig, hperf]
    · rw [consider_of_not_eligible helig]
      simp only [ih]
      simp [offers, helig]

/-- A scan without a perfect match ends with the selected offer. -/
theorem scan_of_not_perfect {entries : List Ref}
    (h : (offers heap current entries).find? (Perfect heap current) = none) :
    scan heap current none entries =
      .best (Selection.enoughOrLargest (heap current).need.amount (fun e => (heap e).offer.amount)
        (offers heap current entries)) := by
  rw [scan_eq, h, ← Selection.foldl_keepEnough]
  rfl

/-! ### The iteration -/

/-- What is left to do with the taken entry. -/
def finish (m : Market) (current : Ref) (rest : List Ref) : Verdict → Event × Market
  | .putBack => (.tail current, { m with queue := rest ++ [current] })
  | .settle best received paid =>
    (.settled current best, settle { m with queue := rest } current best received paid)

/-- A head with a need that is still open goes through the scan. -/
theorem iteration_open (hq : m.queue = current :: rest)
    (hopen : (m.heap current).noMatch = false ∧ (m.heap current).success = false)
    (hneed : (m.heap current).isSurplus = false) :
    iteration m =
      finish m current rest (conclude m.heap current (scan m.heap current none rest)) := by
  unfold iteration
  rw [hq]
  simp only [hopen.1, hopen.2, hneed, Bool.false_eq_true, or_self, if_false]
  cases conclude m.heap current (scan m.heap current none rest) <;> rfl

/-- With a best offer in hand the head is settled with it or put back. -/
theorem finish_best (m : Market) (current best : Ref) (rest : List Ref) :
    finish m current rest (conclude m.heap current (.best (some best))) =
        (.tail current, { m with queue := rest ++ [current] }) ∨
      ∃ m', finish m current rest (conclude m.heap current (.best (some best))) =
        (.settled current best, m') := by
  cases hverdict : conclude m.heap current (.best (some best)) with
  | putBack => exact .inl rfl
  | settle e received paid =>
    cases best_of_conclude hverdict
    exact .inr ⟨_, rfl⟩

/-- **Best-offer selection.** The head asks for something and no mark says that it has been handled; the
entries it may take are those of the rest of the queue, since it is of its own country. It is settled
with the first perfect match, each side giving all it offers; without an entry to take it goes to the
tail; otherwise its partner is the last one that covers its need, else the first with the largest offer,
and with that partner it is settled or it goes back to the tail. -/
theorem best_offer_selection (hq : m.queue = current :: rest)
    (hopen : (m.heap current).noMatch = false ∧ (m.heap current).success = false)
    (hneed : (m.heap current).isSurplus = false) :
    (∀ e, (offers m.heap current rest).find? (Perfect m.heap current) = some e →
      ∃ m', iteration m = (.settled current e, m') ∧
        m' = settle { m with queue := rest } current e (m.heap e).offer.amount
          (m.heap current).offer.amount ∧
        ((m.heap current).Unwritten → (m.heap e).Unwritten →
          ((m'.heap e).taken = some (m.heap e).offer.amount ∧
            (m'.heap current).given = some (m.heap e).offer.amount) ∧
          (m'.heap current).taken = some (m.heap current).offer.amount ∧
          (m'.heap e).given = some (m.heap current).offer.amount)) ∧
    (offers m.heap current rest = [] →
      iteration m = (.tail current, { m with queue := rest ++ [current] })) ∧
    (offers m.heap current rest ≠ [] →
      (offers m.heap current rest).find? (Perfect m.heap current) = none →
      ∃ e, Selection.enoughOrLargest (m.heap current).need.amount (fun e => (m.heap e).offer.amount)
          (offers m.heap current rest) = some e ∧
        (scan m.heap current none rest).bestOffer = some e ∧
        (iteration m = (.tail current, { m with queue := rest ++ [current] }) ∨
          ∃ m', iteration m = (.settled current e, m'))) := by
  have hiter := iteration_open hq hopen hneed
  refine ⟨fun e he => ?_, fun hnone => ?_, fun hsome hperf => ?_⟩
  · have hscan : scan m.heap current none rest = .perfect e := by
      rw [scan_eq, he]
      rfl
    have helig := (scan_perfect hscan).2.1
    rw [hscan] at hiter
    refine ⟨_, hiter, rfl, fun hcur hnew => ?_⟩
    have hc : (settle { m with queue := rest } current e (m.heap e).offer.amount
        (m.heap current).offer.amount).heap current = _ := settle_current helig.ne hcur
    have hb : (settle { m with queue := rest } current e (m.heap e).offer.amount
        (m.heap current).offer.amount).heap e = _ := settle_best helig.ne hnew
    simp [hc, hb]
  · have hscan : scan m.heap current none rest = .best none := by
      rw [scan_eq, hnone]
      rfl
    rw [hiter, hscan]
    rfl
  · obtain ⟨e, he⟩ : ∃ e, Selection.enoughOrLargest (m.heap current).need.amount
        (fun e => (m.heap e).offer.amount) (offers m.heap current rest) = some e :=
      Option.ne_none_iff_exists'.mp (Selection.enoughOrLargest_ne_none hsome)
    have hscan := scan_of_not_perfect hperf
    rw [he] at hscan
    rw [hscan] at hiter
    exact ⟨e, he, by rw [hscan, Scan.bestOffer], hiter ▸ finish_best m current e rest⟩

/-- In the queue of `TestManager3` nobody covers the thousand asked for; the largest offer is that of
Gemenon. -/
theorem best_offer_selection_testManager3 :
    (scan testManager3.heap 0 none [1, 2]).bestOffer = some 1 := by
  have hqueue : testManager3.queue = 0 :: [1, 2] := rfl
  obtain ⟨-, -, hchoice⟩ := best_offer_selection hqueue (by decide) rfl
  obtain ⟨e, he, hbest, -⟩ := hchoice (by decide) (by decide)
  have hlargest : Selection.enoughOrLargest (testManager3.heap 0).need.amount
      (fun e => (testManager3.heap e).offer.amount) (offers testManager3.heap 0 [1, 2]) = some 1 := by
    decide
  rw [hbest, ← he, hlargest]

end Manager

end Hermes

import Hermes.World
import Hermes.Trade.Bounds
import Hermes.Trade.Custody

/-!
# Who posted which entry

The entries a thread works with are the ones it has posted itself, each entry is posted once, and the
need path and the surplus path keep theirs apart (`Owned`).
-/

namespace Hermes

namespace Pc

/-- The entry of a need-path wait. -/
def waitsFor : Pc → Option Ref
  | .needCheck trade _ _ _ | .needSleep trade _ _ _ | .needApply trade _ => some trade
  | _ => none

/-- The entries of a surplus batch that the thread still names. -/
def batch : Pc → List Ref
  | .surplusPost _ trades _ _ | .surplusSleep trades _ _ _ => trades
  | .surplusCheck rest _ trades _ _ _ | .surplusQuit rest trades _ => rest ++ trades
  | .surplusCollect rest passed trades _ => rest ++ passed.toList ++ trades
  | .surplusRemove trade rest passed trades _ => trade :: rest ++ passed.toList ++ trades
  | .surplusApply passed _ => passed.toList
  | _ => []

/-- The entries the thread may still apply. -/
def live : Pc → List Ref
  | .needCheck trade _ _ _ | .needSleep trade _ _ _ | .needApply trade _ => [trade]
  | .surplusPost _ trades _ _ | .surplusSleep trades _ _ _ | .surplusCheck _ _ trades _ _ _ => trades
  | .surplusQuit rest _ _ => rest
  | .surplusCollect rest passed _ _ => rest ++ passed.toList
  | .surplusRemove trade rest passed _ _ => trade :: rest ++ passed.toList
  | .surplusApply passed _ => passed.toList
  | .idle | .node _ | .transform _ _ _ | .dead => []

theorem live_sub {pc : Pc} {e : Ref} (he : e ∈ pc.live) : pc.waitsFor = some e ∨ e ∈ pc.batch := by
  cases pc <;> simp_all [live, waitsFor, batch]
  all_goals tauto

end Pc

namespace Effect

/-- The entries that the effect is about, other than a new one. -/
def refs : Effect → List Ref
  | .withdraw trade | .fail trade | .apply trade => [trade]
  | .leave trades => trades
  | .quiet | .post _ _ _ => []

end Effect

namespace Country.Move

variable {full : Bool} {entry e : Ref} {heap : Ref → Entry} {pc pc' : Pc} {s s' : Amounts} {effect : Effect}

/-- A wait on the need path begins with the post of its entry. -/
theorem waitsFor_cases (h : Move full entry heap pc s effect pc' s') (he : pc'.waitsFor = some e) :
    pc.waitsFor = some e ∨ (e = entry ∧ ∃ offer need, effect = .post offer need false) := by
  cases h <;> simp_all [Pc.waitsFor]

/-- The batch of a surplus path grows with the posts of its entries. -/
theorem batch_cases (h : Move full entry heap pc s effect pc' s') (he : e ∈ pc'.batch) :
    e ∈ pc.batch ∨ (e = entry ∧ ∃ offer need, effect = .post offer need true) := by
  cases h
  case surplusFound => simpa [Pc.batch] using he
  case collect =>
    left
    simp only [Pc.batch, List.mem_append, List.mem_cons, Option.mem_toList] at he ⊢
    split_ifs at he with hsucc
    · simp only [Option.some.injEq] at he
      tauto
    · tauto
  all_goals
    simp_all [Pc.batch]
    try tauto

/-- A thread withdraws, leaves and applies only the entries it works with. -/
theorem refs_cases (h : Move full entry heap pc s effect pc' s') (he : e ∈ effect.refs) :
    pc.waitsFor = some e ∨ e ∈ pc.batch := by
  cases h <;> simp_all [Effect.refs, Pc.waitsFor, Pc.batch]

theorem live_of_post {offer need : Resource} {isSurplus : Bool}
    (h : Move full entry heap pc s (.post offer need isSurplus) pc' s') : entry ∈ pc'.live := by
  cases h <;> simp [Pc.live]

/-- Only a post makes an entry live. -/
theorem live_back (h : Move full entry heap pc s effect pc' s') (he : e ∈ pc'.live) :
    e ∈ pc.live ∨ (e = entry ∧ ∃ offer need isSurplus, effect = .post offer need isSurplus) := by
  cases h
  case collect =>
    simp only [Pc.live, List.mem_append, List.mem_cons, Option.mem_toList] at he ⊢
    split_ifs at he
    · simp only [Option.some.injEq] at he
      tauto
    · tauto
  all_goals
    simp_all [Pc.live]
    try tauto

/-- Only live entries are applied or fail. -/
theorem live_of_apply (h : Move full entry heap pc s effect pc' s')
    (he : e ∈ effect.applies ∨ e ∈ effect.fails) : e ∈ pc.live := by
  cases h <;> simp_all [Pc.live, Effect.applies, Effect.fails]

end Country.Move

namespace World

variable {ι : Type} {w w' : World ι} {capacity : ℕ}

/-- The bookkeeping of entries and owners. -/
structure Owned (w : World ι) : Prop where
  exchange : w.exchange.Inv
  waits : ∀ c e, (w.country c).pc.waitsFor = some e →
    (c, e) ∈ w.posted ∧ (w.exchange.heap e).isSurplus = false
  batch : ∀ c e, e ∈ (w.country c).pc.batch →
    (c, e) ∈ w.posted ∧ (w.exchange.heap e).isSurplus = true
  posted_lt : ∀ p ∈ w.posted, p.2 < w.exchange.next
  posted_nodup : (w.posted.map Prod.snd).Nodup
  posted_all : ∀ e < w.exchange.next, ∃ c, (c, e) ∈ w.posted

/-- An entry has one owner. -/
theorem Owned.owner (h : w.Owned) {c c' : ι} {e : Ref} (hc : (c, e) ∈ w.posted)
    (hc' : (c', e) ∈ w.posted) : c = c' :=
  congrArg Prod.fst (List.inj_on_of_nodup_map h.posted_nodup hc hc' rfl)

theorem owned_start (heap : Ref → Entry) (country : ι → Country) : (start heap country).Owned :=
  ⟨Exchange.inv_start heap, by simp [start, Country.goto, Pc.waitsFor],
    by simp [start, Country.goto, Pc.batch], by simp [start], by simp [start],
    by simp [start, Exchange.start]⟩

/-! ### Steps of the exchange under an effect -/

section ExchangeStep

variable {name : String} {effect : Effect} {x x' : Exchange} {e : Ref}

theorem exchangeStep_inv (h : ExchangeStep capacity name effect x x') (hx : x.Inv) : x'.Inv := by
  rcases exchangeStep_cases h with rfl | ⟨a, ha⟩
  · exact hx
  · exact hx.step ha

theorem exchangeStep_terms (h : ExchangeStep capacity name effect x x') (he : e < x.next) :
    e < x'.next ∧ (x.heap e).SameTerms (x'.heap e) := by
  rcases exchangeStep_cases h with rfl | ⟨a, ha⟩
  · exact ⟨he, .refl _⟩
  · exact Exchange.sameTerms_step he ha

theorem exchangeStep_success (hx : x.Inv) (h : ExchangeStep capacity name effect x x')
    (he : e < x.next) (hsucc : (x.heap e).success = true) : (x'.heap e).success = true := by
  rcases exchangeStep_cases h with rfl | ⟨a, ha⟩
  · exact hsucc
  · exact (congrArg Entry.success (hx.frozen_step ha he hsucc).2).trans hsucc

/-- Gone entries stay gone, settled or not. -/
theorem exchangeStep_gone (hx : x.Inv) (h : ExchangeStep capacity name effect x x') (he : x.Gone e) :
    x'.Gone e ∧ (x'.heap e).success = (x.heap e).success := by
  rcases exchangeStep_cases h with rfl | ⟨a, ha⟩
  · exact ⟨he, rfl⟩
  · exact he.step hx ha

/-- A withdrawn entry leaves the queue. -/
theorem exchangeStep_withdraw (h : ExchangeStep capacity name effect x x')
    (heffect : effect = .withdraw e ∨ effect = .fail e) : x' = x.withdraw e := by
  rcases heffect with rfl | rfl
  · exact (Option.some.inj h).symm
  · exact (Option.some.inj h).symm

/-- A post creates the next entry. -/
theorem exchangeStep_post {offer need : Resource} {isSurplus : Bool}
    (h : ExchangeStep capacity name (.post offer need isSurplus) x x') :
    x' = x.post (.create name offer need isSurplus) := by
  simp only [ExchangeStep, Effect.action, Exchange.step] at h
  split_ifs at h
  exact (Option.some.inj h).symm

theorem exchangeStep_next (h : ExchangeStep capacity name effect x x') :
    x'.next = x.next ∨
      ∃ offer need isSurplus, effect = .post offer need isSurplus ∧ x'.next = x.next + 1 := by
  cases effect with
  | post offer need isSurplus =>
    rw [exchangeStep_post h]
    exact .inr ⟨offer, need, isSurplus, rfl, rfl⟩
  | withdraw | fail =>
    cases h
    exact .inl rfl
  | quiet | leave | apply => exact .inl (congrArg Exchange.next h)

end ExchangeStep

/-! ### Ownership is kept -/

theorem Owned.exchangeOnly (h : w.Owned) {b : Exchange.Action} {exchange : Exchange}
    (hb : b.posts = false) (hx : w.exchange.step capacity b = some exchange) :
    ({ w with exchange := exchange } : World ι).Owned := by
  have hterms : ∀ c e, (c, e) ∈ w.posted →
      e < exchange.next ∧ (w.exchange.heap e).SameTerms (exchange.heap e) := fun c e he =>
    Exchange.sameTerms_step (h.posted_lt _ he) hx
  refine ⟨h.exchange.step hx, ?_, ?_, fun p hp => (hterms p.1 p.2 hp).1, h.posted_nodup,
    fun e he => h.posted_all e (Exchange.next_of_step hb hx ▸ he)⟩
  · intro c e he
    obtain ⟨hposted, hneed⟩ := h.waits c e he
    exact ⟨hposted, (hterms c e hposted).2.2.2.2.trans hneed⟩
  · intro c e he
    obtain ⟨hposted, hsurplus⟩ := h.batch c e he
    exact ⟨hposted, (hterms c e hposted).2.2.2.2.trans hsurplus⟩

variable [DecidableEq ι]

/-- A change to a country whose thread names no entry afterwards. -/
theorem Owned.quietCountry (h : w.Owned) {c : ι} {country : Country}
    (hwaits : country.pc.waitsFor = none) (hbatch : country.pc.batch = []) :
    ({ w with country := Function.update w.country c country } : World ι).Owned := by
  refine ⟨h.exchange, ?_, ?_, h.posted_lt, h.posted_nodup, h.posted_all⟩
  · intro c' e he
    by_cases hc : c' = c
    · subst hc
      simp [hwaits] at he
    · simp only [Function.update_of_ne hc] at he
      exact h.waits c' e he
  · intro c' e he
    by_cases hc : c' = c
    · subst hc
      simp [hbatch] at he
    · simp only [Function.update_of_ne hc] at he
      exact h.batch c' e he

section Country

variable {c : ι} {effect : Effect} {country : Country} {exchange : Exchange}

theorem mem_posted_after {p : ι × Ref} :
    p ∈ (w.after c effect country exchange).posted ↔ p ∈ w.posted ∨
      (p = (c, w.exchange.next) ∧ ∃ offer need isSurplus, effect = .post offer need isSurplus) := by
  cases effect <;> simp [after, Effect.posts]

/-- A new entry is its country's, and of the kind it was posted as. -/
theorem posted_new (country : Country) {offer need : Resource} {isSurplus : Bool}
    (hx : ExchangeStep capacity (w.country c).name effect w.exchange exchange)
    (heffect : effect = .post offer need isSurplus) :
    (c, w.exchange.next) ∈ (w.after c effect country exchange).posted ∧
      w.exchange.next < exchange.next ∧ (exchange.heap w.exchange.next).isSurplus = isSurplus := by
  subst heffect
  rw [exchangeStep_post hx]
  exact ⟨mem_posted_after.mpr (.inr ⟨rfl, offer, need, isSurplus, rfl⟩), Nat.lt_succ_self _,
    by simp [Exchange.post, Entry.create]⟩

/-- The entries that the threads work with on one of the two paths stay their own, and of its kind. -/
theorem Owned.kind_after (h : w.Owned) (works : Pc → Ref → Prop) {kind : Bool}
    (hx : ExchangeStep capacity (w.country c).name effect w.exchange exchange)
    (hold : ∀ c e, works (w.country c).pc e →
      (c, e) ∈ w.posted ∧ (w.exchange.heap e).isSurplus = kind)
    (hcases : ∀ e, works country.pc e → works (w.country c).pc e ∨
      (e = w.exchange.next ∧ ∃ offer need, effect = .post offer need kind)) (c' : ι) (e : Ref)
    (he : works ((w.after c effect country exchange).country c').pc e) :
    (c', e) ∈ (w.after c effect country exchange).posted ∧ (exchange.heap e).isSurplus = kind := by
  have hkept : works (w.country c').pc e →
      (c', e) ∈ (w.after c effect country exchange).posted ∧ (exchange.heap e).isSurplus = kind := by
    intro hwork
    obtain ⟨hposted, hkind⟩ := hold c' e hwork
    have hterms := (exchangeStep_terms hx (h.posted_lt _ hposted)).2
    exact ⟨mem_posted_after.mpr (.inl hposted), hterms.2.2.2.trans hkind⟩
  by_cases hc : c' = c
  · subst hc
    simp only [after, Function.update_self] at he
    rcases hcases e he with hwork | ⟨rfl, offer, need, heffect⟩
    · exact hkept hwork
    · obtain ⟨hposted, -, hkind⟩ := posted_new country hx heffect
      exact ⟨hposted, hkind⟩
  · simp only [after, Function.update_of_ne hc] at he
    exact hkept he

theorem Owned.afterMove (h : w.Owned)
    (hmove : Country.Move (w.full capacity) w.exchange.next w.exchange.heap (w.country c).pc
      (w.country c).amounts effect country.pc country.amounts)
    (hx : ExchangeStep capacity (w.country c).name effect w.exchange exchange) :
    (w.after c effect country exchange).Owned := by
  refine ⟨exchangeStep_inv hx h.exchange,
    h.kind_after (fun pc e => pc.waitsFor = some e) hx h.waits fun e => hmove.waitsFor_cases,
    h.kind_after (fun pc e => e ∈ pc.batch) hx h.batch fun e => hmove.batch_cases, ?_, ?_, ?_⟩
  · intro p hp
    rcases mem_posted_after.mp hp with hold | ⟨rfl, offer, need, isSurplus, heffect⟩
    · exact (exchangeStep_terms hx (h.posted_lt p hold)).1
    · exact (posted_new country hx heffect).2.1
  · simp only [after, List.map_append, List.map_map]
    refine List.nodup_append.mpr ⟨h.posted_nodup, by cases effect <;> simp [Effect.posts], ?_⟩
    rintro e he e' he' rfl
    obtain ⟨p, hp, rfl⟩ := List.mem_map.mp he
    have hlt := h.posted_lt p hp
    cases effect with
    | post offer need isSurplus => exact hlt.ne (by simpa [Effect.posts] using he')
    | quiet | withdraw | fail | leave | apply => simp [Effect.posts] at he'
  · intro e he
    have hold : e < w.exchange.next → ∃ c', (c', e) ∈ (w.after c effect country exchange).posted := by
      intro hlt
      obtain ⟨c', hposted⟩ := h.posted_all e hlt
      exact ⟨c', mem_posted_after.mpr (.inl hposted)⟩
    rcases exchangeStep_next hx with hnext | ⟨offer, need, isSurplus, heffect, hnext⟩
    · exact hold (hnext ▸ he)
    · rcases Nat.lt_succ_iff_lt_or_eq.mp (hnext ▸ he) with hlt | rfl
      · exact hold hlt
      · exact ⟨c, (posted_new country hx heffect).1⟩

end Country

/-- Who owns what does not depend on the amounts. -/
theorem Owned.setAmounts (h : w.Owned) (c : ι) (s : Amounts) : (w.setAmounts c s).Owned :=
  ⟨h.exchange, fun c' e he => h.waits c' e (by simpa using he), fun c' e he => h.batch c' e (by simpa using he),
    h.posted_lt, h.posted_nodup, h.posted_all⟩

theorem Owned.step {a : Action ι} (h : w.Owned) (hstep : step capacity w a = some w') : w'.Owned := by
  cases moved_of_step hstep with
  | country hmove hx => exact h.afterMove hmove hx
  | exchange hb hx => exact h.exchangeOnly hb hx
  | schedule hrest => exact h.quietCountry rfl rfl
  | attack => exact h.setAmounts _ _

end World

end Hermes

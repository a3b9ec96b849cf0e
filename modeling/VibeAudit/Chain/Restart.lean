import VibeAudit.Chain.Agreement

/-!
# Restarting the forwarder

A freshly started processor task begins with `HashChain::new()`, whatever the
table holds. Its first row names the empty head, while `verify_chain` expects
the hash of the last row before it, which is never the empty string.
-/

namespace VibeAudit.Chain

open Foundation Json Extension Forwarder

/-- What one forwarder process adds to the table: its events in order, and the ids they get. -/
structure Lifetime where
  ids : List Int
  events : List Value

/-- The events of a lifetime are canonical objects, at least one, each with an id. -/
structure Lifetime.Proper (input : TimestamptzInput) (l : Lifetime) : Prop where
  length_eq : l.ids.length = l.events.length
  nonempty : l.events ≠ []
  canonical : ∀ e ∈ l.events, e.isObject = true ∧ Canonical input e

/-- The rows of one process: its chain starts from `HashChain::new()`. -/
def Lifetime.rows (input : TimestamptzInput) (l : Lifetime) : Option Table := do
  let (_, out) ← HashChain.new.applyAll l.events
  storedRows input l.ids out

def runLifetimes (input : TimestamptzInput) (t : Table) : List Lifetime → Option Table
  | [] => some t
  | l :: ls => do
    let rows ← l.rows input
    runLifetimes input (t ++ rows) ls

variable {input : TimestamptzInput}

/-- What a proper lifetime adds. -/
structure AddsRows (l : Lifetime) (rows : Table) : Prop where
  ids_eq : rows.map Row.id = l.ids
  linked : rowView.Linked (some "") rows
  nonempty : rows ≠ []

theorem Lifetime.Proper.exists_rows {l : Lifetime} (h : l.Proper input) :
    ∃ rows, l.rows input = some rows ∧ AddsRows l rows := by
  have hread : ∀ e ∈ l.events, Readable input e :=
    fun e he => (h.canonical e he).2.readable (h.canonical e he).1
  obtain ⟨last, out, hchain⟩ := HashChain.new.exists_applyAll fun e he => (h.canonical e he).1
  have hfrom := HashChain.applyAll_hashedFrom hchain
  have hlen : l.ids.length = out.length := h.length_eq.trans hfrom.length_eq
  have hout : ∀ e ∈ out, Readable input e := forall_hashed (fun _ _ => readable_hashed) hfrom hread
  obtain ⟨rows, hrows⟩ := exists_storedRows hlen hout
  obtain ⟨hstored, hids⟩ := storedRows_spec hrows
  refine ⟨rows, by simp [Lifetime.rows, hchain, hrows], ?_, ?_, ?_⟩
  · rw [hids, ← hlen, List.take_length]
  · exact linked_rows_of_canonical hchain hrows fun e he => ⟨hread e he, (h.canonical e he).2⟩
  · intro hnil
    have hzero : l.events.length = 0 := by
      rw [hfrom.length_eq, hstored.length_eq, hnil, List.length_nil]
    exact h.nonempty (List.length_eq_zero_iff.mp hzero)

/-- All rows that proper lifetimes add, and the first of them. -/
theorem exists_runLifetimes {ls : List Lifetime} (h : ∀ l ∈ ls, l.Proper input) (t : Table) :
    ∃ rows, runLifetimes input t ls = some (t ++ rows) ∧
      rows.map Row.id = ls.flatMap Lifetime.ids ∧
      (ls ≠ [] → ∃ first rest, rows = first :: rest ∧ first.prevHash = some "") := by
  induction ls generalizing t with
  | nil => exact ⟨[], by simp [runLifetimes], rfl, fun hne => absurd rfl hne⟩
  | cons l ls ih =>
    obtain ⟨mine, hmine, hadds⟩ := (h l List.mem_cons_self).exists_rows
    obtain ⟨rest, hrest, hids, -⟩ := ih (fun l hl => h l (List.mem_cons_of_mem _ hl)) (t ++ mine)
    refine ⟨mine ++ rest, by simp [runLifetimes, hmine, hrest], ?_, fun _ => ?_⟩
    · rw [List.map_append, List.flatMap_cons, hadds.ids_eq, hids]
    · obtain ⟨first, tail, rfl⟩ := List.exists_cons_of_ne_nil hadds.nonempty
      exact ⟨first, tail ++ rest, rfl, hadds.linked.1⟩

theorem pairwise_id_of_map {rows : Table} {ids : List Int} (h : rows.map Row.id = ids)
    (hids : ids.Pairwise (· < ·)) : rows.Pairwise fun a b => a.id ≤ b.id := by
  subst h
  exact (List.pairwise_map.mp hids).imp le_of_lt

/-- Once the table is not empty, no process that writes leaves a table that is accepted. -/
theorem not_accepted_after_restart {t rows : Table} {first : Row} (hne : t ≠ [])
    (hfirst : first.prevHash = some "")
    (hsorted : (first :: rows).Pairwise fun a b => a.id ≤ b.id)
    (hlt : ∀ a ∈ t, ∀ b ∈ first :: rows, a.id < b.id) :
    (verifyChain (t ++ first :: rows)).valid ≠ true := by
  rw [Ne, verifyChain_valid_iff, orderById_append hlt, orderById_eq_self hsorted]
  intro hlinked
  have hhead := hlinked.prevOf_of_append
  have hfront := hlinked.of_append_left
  have hne' : orderById t ≠ [] := by rwa [Ne, orderById_eq_nil]
  exact head_ne_empty hfront hne' (hhead.symm.trans hfirst)

/-- A process that writes after the table has rows spoils the table, and so do all after it. -/
theorem restart_rejected {t : Table} {ls : List Lifetime} (hne : t ≠ []) (hls : ls ≠ [])
    (hproper : ∀ l ∈ ls, l.Proper input) (hids : (ls.flatMap Lifetime.ids).Pairwise (· < ·))
    (hnew : ∀ r ∈ t, ∀ i ∈ ls.flatMap Lifetime.ids, r.id < i) :
    ∃ t', runLifetimes input t ls = some t' ∧ (verifyChain t').valid ≠ true := by
  obtain ⟨rows, hrun, hrowIds, hfirst⟩ := exists_runLifetimes hproper t
  obtain ⟨first, rest, rfl, hprev⟩ := hfirst hls
  refine ⟨_, hrun, not_accepted_after_restart hne hprev (pairwise_id_of_map hrowIds hids) ?_⟩
  intro a ha b hb
  exact hnew a ha b.id (hrowIds ▸ List.mem_map_of_mem hb)

/-- The first process over an empty table leaves a table that is accepted. -/
theorem first_lifetime_accepted {l : Lifetime} (hproper : l.Proper input)
    (hids : l.ids.Pairwise (· < ·)) :
    ∃ rows, l.rows input = some rows ∧ AddsRows l rows ∧ (verifyChain rows).valid = true := by
  obtain ⟨rows, hrows, hadds⟩ := hproper.exists_rows
  refine ⟨rows, hrows, hadds, ?_⟩
  rw [verifyChain_valid_iff, orderById_eq_self (pairwise_id_of_map hadds.ids_eq hids)]
  exact hadds.linked

/-- Over an accepted table, any sequence of processes leaves an accepted table exactly when
none of them writes, or a single one does and the table was empty. -/
theorem restarts_accepted_iff (input : TimestamptzInput) (t : Table) (ls : List Lifetime)
    (haccepted : (verifyChain t).valid = true) (hproper : ∀ l ∈ ls, l.Proper input)
    (hids : (ls.flatMap Lifetime.ids).Pairwise (· < ·))
    (hnew : ∀ r ∈ t, ∀ i ∈ ls.flatMap Lifetime.ids, r.id < i) :
    ∃ t', runLifetimes input t ls = some t' ∧
      ((verifyChain t').valid = true ↔ ls = [] ∨ (t = [] ∧ ls.length = 1)) := by
  cases ls with
  | nil => exact ⟨t, rfl, by simp [haccepted]⟩
  | cons l ls =>
    by_cases ht : t = []
    · subst ht
      rw [List.flatMap_cons, List.pairwise_append] at hids
      obtain ⟨mine, hmine, hadds, hvalid⟩ :=
        first_lifetime_accepted (hproper l List.mem_cons_self) hids.1
      have hrun : runLifetimes input [] (l :: ls) = runLifetimes input mine ls := by
        simp [runLifetimes, hmine]
      rw [hrun]
      cases ls with
      | nil => exact ⟨mine, rfl, by simp [hvalid]⟩
      | cons l' ls =>
        obtain ⟨t', ht', hrejected⟩ := restart_rejected hadds.nonempty (List.cons_ne_nil l' ls)
          (fun l hl => hproper l (List.mem_cons_of_mem _ hl)) hids.2.1
          (fun r hr i hi => hids.2.2 r.id (hadds.ids_eq ▸ List.mem_map_of_mem hr) i hi)
        exact ⟨t', ht', by simp [hrejected]⟩
    · obtain ⟨t', ht', hrejected⟩ :=
        restart_rejected ht (List.cons_ne_nil l ls) hproper hids hnew
      exact ⟨t', ht', by simp [hrejected, ht]⟩

/-- One process that stores the event `millisEvent` twice, under `id` and the next one. -/
def twoEvents (id : Int) : Lifetime :=
  { ids := [id, id + 1], events := [millisEvent, millisEvent] }

theorem twoEvents_proper (id : Int) : (twoEvents id).Proper isoInput where
  length_eq := rfl
  nonempty := List.cons_ne_nil _ _
  canonical := by
    intro e he
    obtain rfl : e = millisEvent := by simpa [twoEvents] using he
    exact ⟨rfl, millisEvent_canonical⟩

/-- One process leaves an accepted table, two of them do not. -/
theorem restarts_accepted_single :
    (∃ t', runLifetimes isoInput [] [twoEvents 1] = some t' ∧ (verifyChain t').valid = true) ∧
      ∃ t', runLifetimes isoInput [] [twoEvents 1, twoEvents 3] = some t' ∧
        ¬ (verifyChain t').valid = true := by
  obtain ⟨t', ht', hone⟩ := restarts_accepted_iff isoInput [] [twoEvents 1] rfl
    (by simpa using twoEvents_proper 1) (by simp [twoEvents]) (by simp)
  obtain ⟨u', hu', htwo⟩ := restarts_accepted_iff isoInput [] [twoEvents 1, twoEvents 3] rfl
    (by simpa using ⟨twoEvents_proper 1, twoEvents_proper 3⟩) (by simp [twoEvents]) (by simp)
  exact ⟨⟨t', ht', hone.mpr (.inr ⟨rfl, rfl⟩)⟩, u', hu', by simp [htwo]⟩

/-- Two processes with two events each, and nothing tampered with, leave a rejected table. -/
theorem not_restarts_accepted :
    ¬ ∀ (t t' : Table) (ls : List Lifetime), (verifyChain t).valid = true →
      (∀ l ∈ ls, l.Proper isoInput) → (ls.flatMap Lifetime.ids).Pairwise (· < ·) →
      (∀ r ∈ t, ∀ i ∈ ls.flatMap Lifetime.ids, r.id < i) →
      runLifetimes isoInput t ls = some t' → (verifyChain t').valid = true := by
  intro h
  have hproper : ∀ l ∈ [twoEvents 1, twoEvents 3], l.Proper isoInput := by
    simpa using And.intro (twoEvents_proper 1) (twoEvents_proper 3)
  have hverdict : ((runLifetimes isoInput [] [twoEvents 1, twoEvents 3]).map verifyChain) =
      some ⟨3, false, some 3⟩ := by decide +kernel
  obtain ⟨t', ht', hrejected⟩ := Option.map_eq_some_iff.mp hverdict
  have haccept := h [] t' _ rfl hproper (by simp [twoEvents]) (by simp) ht'
  rw [hrejected] at haccept
  cases haccept

end VibeAudit.Chain

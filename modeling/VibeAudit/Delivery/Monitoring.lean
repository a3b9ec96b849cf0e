import VibeAudit.Delivery.Counters
import VibeAudit.Forwarder.Health

/-!
# The health endpoint while everything runs

Requests are answered next to the other tasks, and each reads the shared data in
four steps, with any steps of the others in between. Still an answer never
reports more events than its two counters account for, and a later request never
reads less than an earlier answer. What the database does never shows.
-/

namespace VibeAudit.Delivery

open Foundation Json Extension Forwarder

/-- A request that is being answered, and how many answers had been sent when it began. -/
structure OpenRequest where
  seen : Nat
  stage : HealthRequest

structure Answer where
  seen : Nat
  response : HealthResponse

/-- The tasks with the health endpoint beside them. `published` says that the counter of datagrams
includes the event that the processor has in hand and is about to chain. -/
structure Monitored where
  counting : Counting
  published : Bool
  walLsn : String
  requests : List OpenRequest
  answers : List Answer

inductive MonitorAction where
  | task (a : CountingAction)
  | publish
  | ask
  | advance (i : Nat)

namespace Monitored

def new : Monitored where
  counting := Counting.new
  published := false
  walLsn := ""
  requests := []
  answers := []

def udpEvents (s : Monitored) : UInt64 :=
  if s.published && s.counting.taken.any (!isWal ·) then
    s.counting.process.processor.udpCount + 1
  else s.counting.process.processor.udpCount

/-- The next read of a request, and its answer behind the last one. -/
def advance (walEnabled : Bool) (s : Monitored) (i : Nat) (r : OpenRequest) : Monitored :=
  match r.stage with
  | .locked data => { s with requests := s.requests.set i ⟨r.seen, .located data s.walLsn⟩ }
  | .located data lsn =>
    { s with requests := s.requests.set i ⟨r.seen, .counted data lsn s.counting.walCount⟩ }
  | .counted data lsn walEvents =>
    { s with
      requests := s.requests.eraseIdx i
      answers := s.answers ++ [⟨r.seen, healthResponse walEnabled data lsn walEvents s.udpEvents⟩] }

def step (env : Environment) (walEnabled : Bool) (s : Monitored) : MonitorAction → Option Monitored
  | .task .handle =>
    if s.published then
      (s.counting.step env .handle).map fun c => { s with counting := c, published := false }
    else none
  | .task (.capture r) =>
    (s.counting.step env (.capture r)).map fun c => { s with counting := c, walLsn := r.row.lsn }
  | .task a => (s.counting.step env a).map fun c => { s with counting := c }
  | .publish =>
    if s.counting.taken.isSome && !s.published then some { s with published := true } else none
  | .ask =>
    let request := ⟨s.answers.length, .locked s.counting.process.processor.health⟩
    some { s with requests := s.requests ++ [request] }
  | .advance i => (s.requests[i]?).map (s.advance walEnabled i)

end Monitored

/-- The actions of the other tasks in a run. -/
def MonitorAction.task? : MonitorAction → Option CountingAction
  | .task a => some a
  | _ => none

def claims (env : Environment) (as : List CountingAction) : Nat := (arrived env as).countP isWal

/-! ## What an answer was read from -/

/-- The events handled, sent by capture, and counted for an answer when it was read. -/
structure Mark where
  handled : List Value
  sent : List Value
  known : List Value

/-- Everything is read later for the second answer. -/
structure Mark.Before (m n : Mark) : Prop where
  handled : m.handled <+: n.handled
  sent : m.sent <+: n.sent
  known : m.known <+: n.known

def known (s : Monitored) (handled : List Value) : List Value :=
  handled ++ if s.published then s.counting.taken.toList else []

/-- The events handled are accounted for by those sent by capture and those counted as
datagrams. -/
def Accounted (claims : Nat) (handled sent known : List Value) : Prop :=
  handled.length ≤ sent.length + (known.countP fun e => !isWal e) + claims

/-- What an open request has read: `h` are the events handled then, and `w` those that capture had
sent when it last looked. -/
structure Reads (claims : Nat) (handled sent : List Value) (marks : List Mark) (r : OpenRequest)
    (h w : List Value) : Prop where
  seen_le : r.seen ≤ marks.length
  handled : h <+: handled
  sent : w <+: sent
  processed : r.stage.data.eventsProcessed = UInt64.ofNat h.length
  reported : r.stage.data.chainLength = UInt64.ofNat h.length
  wal : ∀ walEvents, r.stage.walEvents? = some walEvents → walEvents = UInt64.ofNat w.length
  accounted : Accounted claims h w h
  after : ∀ m ∈ marks.take r.seen, m.handled <+: h ∧ m.sent <+: w

/-- What an answer shows. -/
structure Shows (claims : Nat) (marks : List Mark) (m : Mark) (a : Answer) : Prop where
  seen_le : a.seen ≤ marks.length
  processed : a.response.eventsProcessed = UInt64.ofNat m.handled.length
  reported : a.response.chainLength = UInt64.ofNat m.handled.length
  wal : a.response.walEvents = UInt64.ofNat m.sent.length
  udp : a.response.udpEvents = UInt64.ofNat (m.known.countP fun e => !isWal e)
  accounted : Accounted claims m.handled m.sent m.known
  after : ∀ n ∈ marks.take a.seen, n.Before m

/-- The invariant: every open request and every answer was read from what the tasks had done. -/
structure Watched (env : Environment) (as : List CountingAction) (s : Monitored)
    (handled sent : List Value) (marks : List Mark) : Prop where
  tally : Tally env as s.counting handled sent
  requests : ∀ r ∈ s.requests, ∃ h w, Reads (claims env as) handled sent marks r h w
  answers : List.Forall₂ (Shows (claims env as) marks) marks s.answers
  marked : ∀ m ∈ marks, m.Before ⟨handled, sent, known s handled⟩

variable {env : Environment} {walEnabled : Bool} {as : List CountingAction} {s t : Monitored}
  {handled sent handled' sent' : List Value} {marks : List Mark} {c c' : Nat}

theorem Mark.Before.trans {l m n : Mark} (h : l.Before m) (h' : m.Before n) : l.Before n :=
  ⟨h.handled.trans h'.handled, h.sent.trans h'.sent, h.known.trans h'.known⟩

/-- More events sent and more known only account for more. -/
theorem Accounted.mono {w w' k k' : List Value} (h : Accounted c handled w k) (hc : c ≤ c')
    (hw : w <+: w') (hk : k <+: k') : Accounted c' handled w' k' := by
  have hsent := hw.length_le
  have hknown := hk.sublist.countP_le (p := fun e => !isWal e)
  unfold Accounted at *
  omega

theorem Reads.mono {r : OpenRequest} {h w : List Value} (hr : Reads c handled sent marks r h w)
    (hc : c ≤ c') (hhandled : handled <+: handled') (hsent : sent <+: sent') (new : List Mark) :
    Reads c' handled' sent' (marks ++ new) r h w where
  seen_le := by
    rw [List.length_append]
    exact Nat.le_add_right_of_le hr.seen_le
  handled := hr.handled.trans hhandled
  sent := hr.sent.trans hsent
  processed := hr.processed
  reported := hr.reported
  wal := hr.wal
  accounted := hr.accounted.mono hc (List.prefix_refl w) (List.prefix_refl h)
  after := by
    rw [List.take_append_of_le_length hr.seen_le]
    exact hr.after

theorem Shows.mono {m : Mark} {a : Answer} (h : Shows c marks m a) (hc : c ≤ c')
    (new : List Mark) : Shows c' (marks ++ new) m a where
  __ := h
  seen_le := by
    rw [List.length_append]
    exact Nat.le_add_right_of_le h.seen_le
  accounted := h.accounted.mono hc (List.prefix_refl _) (List.prefix_refl _)
  after := by
    rw [List.take_append_of_le_length h.seen_le]
    exact h.after

namespace Watched

theorem new : Watched env [] Monitored.new [] [] [] where
  tally := Tally.new
  requests := by simp [Monitored.new]
  answers := .nil
  marked := by simp

/-- The events handled are those of datagrams and those that say they come from the WAL. -/
theorem accounted (h : Watched env as s handled sent marks) :
    Accounted (claims env as) handled sent handled := by
  have hsplit : handled.length = handled.countP isWal + handled.countP fun e => !isWal e := by
    rw [List.length_eq_countP_add_countP isWal]
    congr 2
    funext e
    simp
  have hwal := h.tally.somewhere isWal
  have hsent : sent.countP isWal ≤ sent.length := List.countP_le_length
  simp only [List.countP_append] at hwal
  unfold Accounted claims
  omega

/-- The answer counts the handled events that do not come from the WAL. -/
theorem udpEvents_eq (h : Watched env as s handled sent marks) :
    s.udpEvents = UInt64.ofNat ((known s handled).countP fun e => !isWal e) := by
  rw [known, List.countP_append, Monitored.udpEvents, h.tally.udp]
  cases hpublished : s.published with
  | false => simp
  | true =>
    cases htaken : s.counting.taken with
    | none => simp
    | some event =>
      cases hwal : isWal event with
      | true => simp [hwal]
      | false =>
        have hone : UInt64.ofNat 1 = 1 := rfl
        simp [hwal, hone]

/-- More may be handled, sent and known. -/
theorem grow (h : Watched env as s handled sent marks) {as' : List CountingAction}
    (htally : Tally env as' t.counting handled' sent') (hclaims : claims env as ≤ claims env as')
    (hhandled : handled <+: handled') (hsent : sent <+: sent')
    (hknown : known s handled <+: known t handled') (hrequests : t.requests = s.requests)
    (hanswers : t.answers = s.answers) : Watched env as' t handled' sent' marks where
  tally := htally
  requests := by
    rw [hrequests]
    intro r hr
    obtain ⟨h', w, hreads⟩ := h.requests r hr
    exact ⟨h', w, by simpa using hreads.mono hclaims hhandled hsent []⟩
  answers := by
    rw [hanswers]
    exact h.answers.imp fun _ _ hshows => by simpa using hshows.mono hclaims []
  marked m hm := (h.marked m hm).trans ⟨hhandled, hsent, hknown⟩

/-- A request begins. -/
theorem ask (h : Watched env as s handled sent marks) :
    Watched env as { s with requests := s.requests ++
      [⟨s.answers.length, .locked s.counting.process.processor.health⟩] } handled sent marks where
  __ := h
  requests := by
    intro r hr
    rcases List.mem_append.mp hr with hr | hr
    · exact h.requests r hr
    · obtain rfl := List.mem_singleton.mp hr
      have hlength : s.answers.length = marks.length := h.answers.length_eq.symm
      refine ⟨handled, sent, hlength.le, List.prefix_refl _, List.prefix_refl _,
        h.tally.processed, h.tally.reported, by simp [HealthRequest.walEvents?], h.accounted, ?_⟩
      intro m hm
      have hmarked := h.marked m (List.mem_of_mem_take hm)
      exact ⟨hmarked.handled, hmarked.sent⟩

/-- A request reads on. -/
theorem readOn (h : Watched env as s handled sent marks) {i : Nat} {r r' : OpenRequest}
    (hr : s.requests[i]? = some r) (hseen : r'.seen = r.seen) (hdata : r'.stage.data = r.stage.data)
    (hwal : ∀ walEvents, r'.stage.walEvents? = some walEvents → walEvents = s.counting.walCount) :
    Watched env as { s with requests := s.requests.set i r' } handled sent marks where
  __ := h
  requests := by
    intro q hq
    rcases List.mem_or_eq_of_mem_set hq with hq | rfl
    · exact h.requests q hq
    · obtain ⟨h', w, hreads⟩ := h.requests r (List.mem_of_getElem? hr)
      refine ⟨h', sent, hseen ▸ hreads.seen_le, hreads.handled, List.prefix_refl _,
        hdata ▸ hreads.processed, hdata ▸ hreads.reported, ?_,
        hreads.accounted.mono le_rfl hreads.sent (List.prefix_refl _), ?_⟩
      · intro walEvents hsome
        rw [hwal walEvents hsome, h.tally.wal]
      · rw [hseen]
        intro m hm
        exact ⟨(hreads.after m hm).1, (hreads.after m hm).2.trans hreads.sent⟩

/-- A request is answered. -/
theorem answer (h : Watched env as s handled sent marks) (walEnabled : Bool) {i : Nat}
    {r : OpenRequest} (hr : s.requests[i]? = some r) {data : HealthData} {lsn : String}
    {walEvents : UInt64} (hstage : r.stage = .counted data lsn walEvents) :
    ∃ m, Watched env as { s with
      requests := s.requests.eraseIdx i
      answers := s.answers ++ [⟨r.seen, healthResponse walEnabled data lsn walEvents s.udpEvents⟩] }
      handled sent (marks ++ [m]) := by
  obtain ⟨h', w, hreads⟩ := h.requests r (List.mem_of_getElem? hr)
  have hall : handled <+: known s handled := List.prefix_append _ _
  have hprocessed := hreads.processed
  have hreported := hreads.reported
  rw [hstage] at hprocessed hreported
  refine ⟨⟨h', w, known s handled⟩, h.tally, ?_, ?_, ?_⟩
  · intro q hq
    obtain ⟨h'', w', hq'⟩ := h.requests q (List.mem_of_mem_eraseIdx hq)
    exact ⟨h'', w', hq'.mono le_rfl (List.prefix_refl _) (List.prefix_refl _) _⟩
  · apply List.rel_append (h.answers.imp fun _ _ hshows => hshows.mono le_rfl _)
    refine .cons ⟨?_, hprocessed, hreported, hreads.wal walEvents (by rw [hstage]; rfl),
      h.udpEvents_eq, ?_, ?_⟩ .nil
    · rw [List.length_append]
      exact Nat.le_add_right_of_le hreads.seen_le
    · exact hreads.accounted.mono le_rfl (List.prefix_refl _) (hreads.handled.trans hall)
    · rw [List.take_append_of_le_length hreads.seen_le]
      intro n hn
      exact ⟨(hreads.after n hn).1, (hreads.after n hn).2,
        (h.marked n (List.mem_of_mem_take hn)).known⟩
  · intro n hn
    rcases List.mem_append.mp hn with hn | hn
    · exact h.marked n hn
    · obtain rfl := List.mem_singleton.mp hn
      exact ⟨hreads.handled, hreads.sent, List.prefix_refl _⟩

end Watched

/-- What a step of a task changes besides the tasks. -/
def Monitored.after (s : Monitored) (c : Counting) : CountingAction → Monitored
  | .handle => { s with counting := c, published := false }
  | .capture r => { s with counting := c, walLsn := r.row.lsn }
  | _ => { s with counting := c }

/-- The tasks go on under the eyes of a request as they do without it. -/
theorem Monitored.counting_of_task {a : CountingAction}
    (h : s.step env walEnabled (.task a) = some t) :
    ∃ c, s.counting.step env a = some c ∧ t = s.after c a := by
  cases a with
  | handle =>
    simp only [Monitored.step] at h
    split_ifs at h
    obtain ⟨c, hc, rfl⟩ := Option.map_eq_some_iff.mp h
    exact ⟨c, hc, rfl⟩
  | _ =>
    obtain ⟨c, hc, rfl⟩ := Option.map_eq_some_iff.mp h
    exact ⟨c, hc, rfl⟩

/-- The event in hand stays the same until it is handled. -/
theorem taken_eq_of_step {c c' : Counting} {a : CountingAction} (hstep : c.step env a = some c')
    (ha : a ≠ .handle) : c'.taken = c.taken ∨ c.taken = none := by
  cases a with
  | handle => exact absurd rfl ha
  | flushFull db gap =>
    simp only [Counting.step] at hstep
    split_ifs at hstep
    obtain ⟨p, -, rfl⟩ := Option.map_eq_some_iff.mp hstep
    exact .inl rfl
  | tick db gap =>
    simp only [Counting.step] at hstep
    split_ifs at hstep
    obtain ⟨p, -, rfl⟩ := Option.map_eq_some_iff.mp hstep
    exact .inl rfl
  | _ => grind [Counting.step, Counting.send]

namespace Watched

theorem claims_mono (as bs : List CountingAction) : claims env as ≤ claims env (as ++ bs) := by
  unfold claims
  rw [arrived_append, List.countP_append]
  omega

/-- A task takes a step. -/
theorem task (h : Watched env as s handled sent marks) {a : CountingAction}
    (ha : s.step env walEnabled (.task a) = some t) :
    ∃ handled' sent', Watched env (as ++ [a]) t handled' sent' marks := by
  by_cases hhandle : a = .handle
  · subst hhandle
    simp only [Monitored.step] at ha
    split_ifs at ha with hpublished
    obtain ⟨c, hc, rfl⟩ := Option.map_eq_some_iff.mp ha
    refine ⟨_, _, h.grow (h.tally.step hc) (claims_mono as _) (List.prefix_append _ _)
      (List.prefix_append _ _) ?_ rfl rfl⟩
    simp [known, hpublished, CountingAction.handled]
  · obtain ⟨c, hc, rfl⟩ := Monitored.counting_of_task ha
    have hsame : (s.after c a).counting = c ∧ (s.after c a).published = s.published ∧
        (s.after c a).requests = s.requests ∧ (s.after c a).answers = s.answers := by
      cases a <;> first | exact ⟨rfl, rfl, rfl, rfl⟩ | exact absurd rfl hhandle
    obtain ⟨hcounting, hpublished, hrequests, hanswers⟩ := hsame
    have hnone : a.handled s.counting = [] := by
      cases a <;> first | rfl | exact absurd rfl hhandle
    have htally := h.tally.step hc
    rw [hnone, List.append_nil, ← hcounting] at htally
    refine ⟨_, _, h.grow htally (claims_mono as _) (List.prefix_refl _) (List.prefix_append _ _)
      ?_ hrequests hanswers⟩
    rw [known, known, hpublished, hcounting]
    rcases taken_eq_of_step hc hhandle with htaken | htaken
    · rw [htaken]
    · rw [htaken]
      simp

/-- What one step preserves. -/
theorem step (h : Watched env as s handled sent marks) {a : MonitorAction}
    (ha : s.step env walEnabled a = some t) :
    ∃ handled' sent' marks', Watched env (as ++ a.task?.toList) t handled' sent' marks' := by
  cases a with
  | task a =>
    obtain ⟨handled', sent', hnext⟩ := h.task ha
    exact ⟨handled', sent', marks, hnext⟩
  | publish =>
    simp only [Monitored.step] at ha
    split_ifs at ha with hguard
    obtain rfl := Option.some.inj ha
    have hpublished : s.published = false := by grind
    have hnone : MonitorAction.publish.task? = none := rfl
    rw [hnone, Option.toList_none, List.append_nil]
    refine ⟨handled, sent, marks, h.grow h.tally le_rfl (List.prefix_refl _) (List.prefix_refl _)
      ?_ rfl rfl⟩
    simp [known, hpublished]
  | ask =>
    obtain rfl := Option.some.inj ha
    exact ⟨handled, sent, marks, by simpa [MonitorAction.task?] using h.ask⟩
  | advance i =>
    have hnone : (MonitorAction.advance i).task? = none := rfl
    rw [hnone, Option.toList_none, List.append_nil]
    obtain ⟨r, hr, rfl⟩ := Option.map_eq_some_iff.mp ha
    unfold Monitored.advance
    split
    · next data hstage =>
      exact ⟨handled, sent, marks, h.readOn hr rfl (by rw [hstage]; rfl)
        (by simp [HealthRequest.walEvents?])⟩
    · next data lsn hstage =>
      exact ⟨handled, sent, marks, h.readOn hr rfl (by rw [hstage]; rfl)
        (by simp [HealthRequest.walEvents?])⟩
    · next data lsn walEvents hstage =>
      obtain ⟨m, hnext⟩ := h.answer walEnabled hr hstage
      exact ⟨handled, sent, _, hnext⟩

/-- What every run preserves. -/
theorem of_run {actions : List MonitorAction}
    (hrun : run (Monitored.step env walEnabled) Monitored.new actions = some s) :
    ∃ handled sent marks,
      Watched env (actions.filterMap MonitorAction.task?) s handled sent marks := by
  refine run_induction (Monitored.step env walEnabled) (I := fun as s => ∃ handled sent marks,
      Watched env (as.filterMap MonitorAction.task?) s handled sent marks)
    (C := fun _ _ _ => True) ⟨[], [], [], new⟩ ?_ hrun (fun _ _ _ _ _ _ => trivial)
  rintro as u a t - ⟨handled, sent, marks, hu⟩ - hstep
  have hsnoc : (as ++ [a]).filterMap MonitorAction.task? =
      as.filterMap MonitorAction.task? ++ a.task?.toList := by
    rw [List.filterMap_append]
    cases a <;> rfl
  rw [hsnoc]
  exact hu.step hstep

/-- What can be in hand or counted came in before. -/
theorem length_le (h : Watched env as s handled sent marks) :
    handled.length ≤ (arrived env as).length + (decoded env as).length ∧
      sent.length ≤ (arrived env as).length + (decoded env as).length ∧
      (known s handled).length ≤ (arrived env as).length + (decoded env as).length := by
  have hall := h.tally.somewhere fun _ => true
  have hdecoded := congrArg List.length h.tally.decoded_eq
  simp only [List.countP_true, List.length_append] at hall hdecoded
  have hpublished : (known s handled).length ≤ handled.length + s.counting.taken.toList.length := by
    unfold known
    split <;> simp
  omega

end Watched

def incoming (env : Environment) (as : List CountingAction) : Nat :=
  (arrived env as).length + (decoded env as).length

/-- An answer in numbers, while the counters have not wrapped. -/
theorem Shows.toNat_eq {m : Mark} {a : Answer} (h : Shows c marks m a)
    (hbefore : m.Before ⟨handled, sent, known s handled⟩)
    (hwatched : Watched env as s handled sent marks) (hbelow : incoming env as < 2 ^ 64) :
    a.response.eventsProcessed.toNat = m.handled.length ∧
      a.response.walEvents.toNat = m.sent.length ∧
      a.response.udpEvents.toNat = m.known.countP fun e => !isWal e := by
  obtain ⟨hhandled, hsent, hknown⟩ := hwatched.length_le
  have hcount : (m.known.countP fun e => !isWal e) ≤ m.known.length := List.countP_le_length
  have hmark : m.handled.length ≤ handled.length := hbefore.handled.length_le
  have hmark' : m.sent.length ≤ sent.length := hbefore.sent.length_le
  have hmark'' : m.known.length ≤ (known s handled).length := hbefore.known.length_le
  have hlimit : incoming env as < UInt64.size := hbelow
  unfold incoming at hlimit
  refine ⟨?_, ?_, ?_⟩
  · rw [h.processed, UInt64.toNat_ofNat_of_lt' (by omega)]
  · rw [h.wal, UInt64.toNat_ofNat_of_lt' (by omega)]
  · rw [h.udp, UInt64.toNat_ofNat_of_lt' (by omega)]

/-- Every answer of every run accounts for its events: it reports as many as the chain has, and no
more than its two counters and the datagrams that pass for events of capture. -/
theorem answers_accounted (env : Environment) (walEnabled : Bool) (actions : List MonitorAction)
    (s : Monitored) (hrun : run (Monitored.step env walEnabled) Monitored.new actions = some s)
    (hbelow : incoming env (actions.filterMap MonitorAction.task?) < 2 ^ 64) :
    ∀ a ∈ s.answers, a.response.eventsProcessed = a.response.chainLength ∧
      a.response.eventsProcessed.toNat ≤ a.response.walEvents.toNat +
        a.response.udpEvents.toNat + claims env (actions.filterMap MonitorAction.task?) := by
  obtain ⟨handled, sent, marks, h⟩ := Watched.of_run hrun
  intro a ha
  obtain ⟨i, hi, rfl⟩ := List.getElem_of_mem ha
  have hmark : i < marks.length := h.answers.length_eq ▸ hi
  have hshows := h.answers.get hmark hi
  have hbefore := h.marked _ (List.getElem_mem hmark)
  obtain ⟨hprocessed, hwal, hudp⟩ := hshows.toNat_eq hbefore h hbelow
  refine ⟨hshows.processed.trans hshows.reported.symm, ?_⟩
  have haccounted := hshows.accounted
  unfold Accounted at haccounted
  simp only [List.get_eq_getElem] at hprocessed hwal hudp haccounted
  omega

def monitoredActions : List MonitorAction :=
  [.ask, .advance 0, .advance 0, .advance 0, .task (.datagram millisDatagram), .task .sendParsed,
   .task .take, .publish, .ask, .advance 0, .task .handle, .advance 0, .advance 0]

theorem answers_accounted_datagram :
    ∃ s, run (Monitored.step millisEnvironment true) Monitored.new monitoredActions = some s ∧
      s.answers.length = 2 ∧
      ∀ a ∈ s.answers, a.response.eventsProcessed = a.response.chainLength ∧
        a.response.eventsProcessed.toNat ≤ a.response.walEvents.toNat +
          a.response.udpEvents.toNat +
          claims millisEnvironment (monitoredActions.filterMap MonitorAction.task?) := by
  have hend : (run (Monitored.step millisEnvironment true) Monitored.new monitoredActions).any
      (fun s => s.answers.length == 2) = true := by decide +kernel
  obtain ⟨s, hs, hlength⟩ := (Option.any_eq_true _ _).mp hend
  exact ⟨s, hs, by simpa using hlength,
    answers_accounted millisEnvironment true monitoredActions s hs (by decide +kernel)⟩

/-- No counter of an answer is below that of an answer sent before its request began. -/
theorem answers_never_decrease (env : Environment) (walEnabled : Bool)
    (actions : List MonitorAction) (s : Monitored)
    (hrun : run (Monitored.step env walEnabled) Monitored.new actions = some s)
    (hbelow : incoming env (actions.filterMap MonitorAction.task?) < 2 ^ 64) :
    ∀ b ∈ s.answers, ∀ a ∈ s.answers.take b.seen,
      a.response.eventsProcessed ≤ b.response.eventsProcessed ∧
      a.response.walEvents ≤ b.response.walEvents ∧
      a.response.udpEvents ≤ b.response.udpEvents := by
  obtain ⟨handled, sent, marks, h⟩ := Watched.of_run hrun
  intro b hb a ha
  obtain ⟨j, hj, rfl⟩ := List.getElem_of_mem hb
  obtain ⟨i, hi, rfl⟩ := List.getElem_of_mem ha
  rw [List.length_take] at hi
  have hmarkj : j < marks.length := h.answers.length_eq ▸ hj
  have hmarki : i < marks.length := by
    rw [h.answers.length_eq]
    omega
  have hshowsj := h.answers.get hmarkj hj
  have hshowsi := h.answers.get hmarki (by omega)
  simp only [List.get_eq_getElem] at hshowsi hshowsj
  obtain ⟨hprocessedj, hwalj, hudpj⟩ :=
    hshowsj.toNat_eq (h.marked _ (List.getElem_mem hmarkj)) h hbelow
  obtain ⟨hprocessedi, hwali, hudpi⟩ :=
    hshowsi.toNat_eq (h.marked _ (List.getElem_mem hmarki)) h hbelow
  have hbefore : marks[i].Before marks[j] := by
    apply hshowsj.after
    rw [List.mem_take_iff_getElem]
    exact ⟨i, by omega, rfl⟩
  rw [List.getElem_take, UInt64.le_iff_toNat_le, UInt64.le_iff_toNat_le, UInt64.le_iff_toNat_le,
    hprocessedi, hprocessedj, hwali, hwalj, hudpi, hudpj]
  exact ⟨hbefore.handled.length_le, hbefore.sent.length_le, hbefore.known.sublist.countP_le⟩

theorem answers_never_decrease_datagram :
    ∃ s, run (Monitored.step millisEnvironment true) Monitored.new monitoredActions = some s ∧
      s.answers.map Answer.seen = [0, 1] ∧
      ∀ b ∈ s.answers, ∀ a ∈ s.answers.take b.seen,
        a.response.eventsProcessed ≤ b.response.eventsProcessed ∧
        a.response.walEvents ≤ b.response.walEvents ∧
        a.response.udpEvents ≤ b.response.udpEvents := by
  have hend : (run (Monitored.step millisEnvironment true) Monitored.new monitoredActions).any
      (fun s => s.answers.map Answer.seen == [0, 1]) = true := by decide +kernel
  obtain ⟨s, hs, hseen⟩ := (Option.any_eq_true _ _).mp hend
  exact ⟨s, hs, by simpa using hseen,
    answers_never_decrease millisEnvironment true monitoredActions s hs (by decide +kernel)⟩

/-! ## The database does not show -/

def Counting.visible (c : Counting) : Counting :=
  { c with process := { Process.new with processor := c.process.processor } }

def CountingAction.visible : CountingAction → CountingAction
  | .flushFull _ _ => .flushFull .getFailed 0
  | .tick _ _ => .tick .getFailed 0
  | a => a

def MonitorAction.visible : MonitorAction → MonitorAction
  | .task a => .task a.visible
  | a => a

def Monitored.visible (s : Monitored) : Monitored := { s with counting := s.counting.visible }

/-- A flush leaves an empty batch, whatever the database does. -/
theorem processor_of_flush {p p' : Process} {a : Action} (hdb : a.db.isSome = true)
    (h : p.step env.input a = some p') : p'.processor = { p.processor with batch := [] } := by
  cases a with
  | receive event => cases hdb
  | flushFull db gap =>
    simp only [Process.step] at h
    split_ifs at h
    exact (Process.flush_spec h).1
  | tick db gap =>
    simp only [Process.step] at h
    split_ifs at h with hlen hempty
    · obtain rfl := Option.some.inj h
      rw [← List.isEmpty_iff.mp hempty]
    · exact (Process.flush_spec h).1

theorem processor_of_receive {p p' : Process} {event : Value}
    (h : p.step env.input (.receive event) = some p') :
    p.processor.receive event = some p'.processor := by
  rcases Process.step_cases h with ⟨e, q, he, hq, rfl⟩ | ⟨_, _, -, hnone, -⟩ | ⟨hnone, -⟩
  · obtain rfl := Action.receive.inj he
    exact hq
  · cases hnone
  · cases hnone

/-- What a step leaves to be seen depends on what was to be seen. -/
theorem Counting.visible_of_step {c c' d d' : Counting} {a b : CountingAction}
    (hsame : c.visible = d.visible) (hab : a.visible = b.visible)
    (ha : c.step env a = some c') (hb : d.step env b = some d') : c'.visible = d'.visible := by
  have hprocessor : c.process.processor = d.process.processor :=
    congrArg (fun c => c.process.processor) hsame
  cases a with
  | handle =>
    obtain rfl : b = .handle := by cases b <;> grind [CountingAction.visible]
    have htaken : c.taken = d.taken := congrArg (fun c => c.taken) hsame
    simp only [Counting.step, htaken] at ha hb
    split at ha
    · cases ha
    · next event hevent =>
      rw [hevent] at hb
      obtain ⟨p, hp, rfl⟩ := Option.map_eq_some_iff.mp ha
      obtain ⟨q, hq, rfl⟩ := Option.map_eq_some_iff.mp hb
      have hp' := processor_of_receive hp
      rw [hprocessor, processor_of_receive hq] at hp'
      grind [Counting.visible]
  | flushFull db gap =>
    obtain ⟨db', gap', rfl⟩ : ∃ db' gap', b = .flushFull db' gap' := by
      cases b <;> grind [CountingAction.visible]
    simp only [Counting.step] at ha hb
    split_ifs at ha hb
    obtain ⟨p, hp, rfl⟩ := Option.map_eq_some_iff.mp ha
    obtain ⟨q, hq, rfl⟩ := Option.map_eq_some_iff.mp hb
    have hp' := processor_of_flush rfl hp
    have hq' := processor_of_flush rfl hq
    grind [Counting.visible]
  | tick db gap =>
    obtain ⟨db', gap', rfl⟩ : ∃ db' gap', b = .tick db' gap' := by
      cases b <;> grind [CountingAction.visible]
    simp only [Counting.step] at ha hb
    split_ifs at ha hb
    obtain ⟨p, hp, rfl⟩ := Option.map_eq_some_iff.mp ha
    obtain ⟨q, hq, rfl⟩ := Option.map_eq_some_iff.mp hb
    have hp' := processor_of_flush rfl hp
    have hq' := processor_of_flush rfl hq
    grind [Counting.visible]
  | _ =>
    cases b <;> grind [Counting.step, Counting.send, Counting.visible, CountingAction.visible]

/-- The same of the tasks with the endpoint. -/
theorem Monitored.visible_of_step {s s' t t' : Monitored} {a b : MonitorAction}
    (hsame : s.visible = t.visible) (hab : a.visible = b.visible)
    (ha : s.step env walEnabled a = some s') (hb : t.step env walEnabled b = some t') :
    s'.visible = t'.visible := by
  have hcounting : s.counting.visible = t.counting.visible := congrArg (fun s => s.counting) hsame
  cases a with
  | task a =>
    obtain ⟨b, rfl⟩ : ∃ b', b = .task b' := by cases b <;> grind [MonitorAction.visible]
    have hab' : a.visible = b.visible := MonitorAction.task.inj hab
    obtain ⟨c, hc, rfl⟩ := Monitored.counting_of_task ha
    obtain ⟨d, hd, rfl⟩ := Monitored.counting_of_task hb
    have hvisible := Counting.visible_of_step hcounting hab' hc hd
    cases a <;> cases b <;>
      grind [Monitored.visible, Monitored.after, CountingAction.visible]
  | publish =>
    obtain rfl : b = .publish := by cases b <;> grind [MonitorAction.visible]
    grind [Monitored.step, Monitored.visible, Counting.visible]
  | ask =>
    obtain rfl : b = .ask := by cases b <;> grind [MonitorAction.visible]
    grind [Monitored.step, Monitored.visible, Counting.visible]
  | advance i =>
    obtain rfl : b = .advance i := by cases b <;> grind [MonitorAction.visible]
    obtain ⟨r, hr, rfl⟩ := Option.map_eq_some_iff.mp ha
    obtain ⟨q, hq, rfl⟩ := Option.map_eq_some_iff.mp hb
    grind [Monitored.advance, Monitored.udpEvents, Monitored.visible, Counting.visible]

/-- No answer depends on the database: two runs in which the same happens but for what the
database does in the flushes give the same answers. -/
theorem answers_blind_to_database (env : Environment) (walEnabled : Bool)
    (actions actions' : List MonitorAction) (s s' : Monitored)
    (hsame : actions.map MonitorAction.visible = actions'.map MonitorAction.visible)
    (hrun : run (Monitored.step env walEnabled) Monitored.new actions = some s)
    (hrun' : run (Monitored.step env walEnabled) Monitored.new actions' = some s') :
    s.answers = s'.answers := by
  have hall : List.Forall₂ (fun a b => a.visible = b.visible) actions actions' := by
    have hrefl : List.Forall₂ (· = ·) (actions.map MonitorAction.visible)
        (actions'.map MonitorAction.visible) := by
      rw [hsame]
      exact List.forall₂_refl _
    simpa [List.forall₂_map_left_iff, List.forall₂_map_right_iff] using hrefl
  have hvisible : s.visible = s'.visible :=
    run_related (R := fun s t => s.visible = t.visible)
      (fun _ _ _ _ _ _ => Monitored.visible_of_step) hall rfl hrun hrun'
  exact congrArg (fun s => s.answers) hvisible

def flushedActions (db : DbOutcome) : List MonitorAction :=
  monitoredActions ++ [.task (.tick db 0), .ask, .advance 0, .advance 0, .advance 0]

theorem answers_blind_to_database_failed :
    ∃ s s', run (Monitored.step millisEnvironment true) Monitored.new
        (flushedActions .executed) = some s ∧
      run (Monitored.step millisEnvironment true) Monitored.new
        (flushedActions .getFailed) = some s' ∧
      s.counting.process.table.rows ≠ s'.counting.process.table.rows ∧ s.answers = s'.answers := by
  have hend : (run (Monitored.step millisEnvironment true) Monitored.new
      (flushedActions .executed)).any
      (fun s => s.counting.process.table.rows.length == 1) = true := by decide +kernel
  have hend' : (run (Monitored.step millisEnvironment true) Monitored.new
      (flushedActions .getFailed)).any
      (fun s => s.counting.process.table.rows.length == 0) = true := by decide +kernel
  obtain ⟨s, hs, hrows⟩ := (Option.any_eq_true _ _).mp hend
  obtain ⟨s', hs', hrows'⟩ := (Option.any_eq_true _ _).mp hend'
  refine ⟨s, s', hs, hs', ?_, answers_blind_to_database millisEnvironment true
    (flushedActions .executed) (flushedActions .getFailed) s s' rfl hs hs'⟩
  intro hsame
  rw [hsame] at hrows
  simp_all

end VibeAudit.Delivery

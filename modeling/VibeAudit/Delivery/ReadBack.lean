import VibeAudit.Delivery.Forwarding
import VibeAudit.Hooks.Storage
import VibeAudit.Json.RoundTrip
import VibeAudit.Redaction.Change
import VibeAudit.Redaction.Detected

/-!
# What is sent and stored can be read

The forwarder prints JSON twice: the messages it sends, and the details it binds
for the table. Whoever reads a message gets the message that was built. The
detail of a captured row is read back as well, except where the row shows a
document that already nests as deep as a reader goes.
-/

namespace VibeAudit.Delivery

open Foundation Json Extension Forwarder Chain Hooks Redaction

section

variable {number : List Char → Option Number} {fromSlice : FromSlice}

variable (number) in
def Shown (event : Value) : Prop :=
  ∀ name ∈ GelfForwarder.gelfMembers, RoundTrips number (event.index name) 127

/-- A small number is read back. -/
theorem rereads_level (hreads : ReadsJson number fromSlice) {n : UInt64} (hn : n ∈ [3, 6]) :
    rereads number (.posInt n) = true := by
  have hthree : number "3".toList = some (.posInt 3) := hreads.int 3
  have hsix : number "6".toList = some (.posInt 6) := hreads.int 6
  rcases List.mem_cons.mp hn with rfl | hn
  · have htext : (Number.posInt 3).text = "3" := rfl
    rw [rereads, htext, hthree]
    decide
  · obtain rfl := List.mem_singleton.mp hn
    have htext : (Number.posInt 6).text = "6" := rfl
    rw [rereads, htext, hsix]
    decide

theorem roundTrips_setText {gelf gelf' : Value} {key : String} {text : Option String}
    (h : RoundTrips number gelf 128) (hset : GelfForwarder.setText gelf key text = some gelf') :
    RoundTrips number gelf' 128 := by
  cases text with
  | none =>
    obtain rfl := Option.some.inj hset
    exact h
  | some s => exact h.setIndex (by decide) (.string s) hset

/-- A message of such members is read back. -/
theorem roundTrips_toGelf (hreads : ReadsJson number fromSlice) {g : GelfForwarder}
    {event gelf : Value} (hshown : Shown number event) (h : g.toGelf event = some gelf) :
    RoundTrips number gelf 128 := by
  have hlevel : ∀ b : Bool, RoundTrips number (.number (.posInt (if b then 6 else 3))) 127 := by
    intro b
    refine ⟨trivial, rereads_level hreads ?_⟩
    cases b <;> simp
  have hfixed : RoundTrips number (.obj (g.fixedMembers event)) 128 := by
    refine RoundTrips.obj (by decide) ?_
    simp only [Shown, GelfForwarder.gelfMembers, List.forall_mem_cons] at hshown
    simp only [GelfForwarder.fixedMembers, List.forall_mem_cons, RoundTrips.string, hlevel, hshown,
      true_and]
    simp
  simp only [GelfForwarder.toGelf, Option.bind_eq_bind, Option.bind_eq_some_iff] at h
  obtain ⟨first, hfirst, second, hsecond, hthird⟩ := h
  exact roundTrips_setText (roundTrips_setText (roundTrips_setText hfixed hfirst) hsecond) hthird

/-! ## The stream -/

variable (number fromSlice) in
/-- An event that is read from a datagram, or one that capture makes of a row. -/
inductive Arrived (fromStr : String → Option Value) (event : Value) : Prop where
  | datagram {bytes : List UInt8} (hread : fromSlice bytes = some event)
    (hnumbers : event.every (rereads number) (fun _ => true) = true)
  | captured {r : ReadRow} (hrow : event ∈ r.events fromStr)

theorem roundTrips_datagram (hreads : ReadsJson number fromSlice) {bytes : List UInt8}
    {event : Value} (hread : fromSlice bytes = some event)
    (hnumbers : event.every (rereads number) (fun _ => true) = true) :
    RoundTrips number event 128 := by
  rw [hreads.read] at hread
  obtain ⟨text, -, htext⟩ := Option.bind_eq_some_iff.mp hread
  exact ⟨within_of_readText htext, hnumbers⟩

/-- A captured event shows no document outside its detail. -/
theorem shown_captured {fromStr : String → Option Value} {r : ReadRow} {event : Value}
    (h : event ∈ r.events fromStr) : Shown number event := by
  obtain ⟨line, docs, hdocs, hevent⟩ := ReadRow.exists_of_mem_events fromStr h
  simp only [changeEvent, hdocs, Option.bind_eq_bind, Option.bind_some, Option.pure_def,
    Option.some.injEq] at hevent
  subst hevent
  simp [Shown, GelfForwarder.gelfMembers, buildDataChangeEvent, Value.index, Value.get?_obj,
    SortedMap.get?_cons, RoundTrips.null, RoundTrips.string, RoundTrips.bool]

theorem Arrived.shown (hreads : ReadsJson number fromSlice) {fromStr : String → Option Value}
    {event : Value} (h : Arrived number fromSlice fromStr event) : Shown number event := by
  cases h with
  | datagram hread hnumbers =>
    exact fun name _ => (roundTrips_datagram hreads hread hnumbers).index name
  | captured hrow => exact shown_captured hrow

theorem shown_hashed {c : HashChain} {event : Value} {a : Applied} (h : Shown number event)
    (ha : c.apply event = some a) : Shown number a.event := by
  have hspec := HashChain.apply_spec ha
  intro name hname
  by_cases hself : name = "event_hash"
  · rw [hself, Value.asStr_eq_some.mp hspec.storedHash_eq]
    exact .string _
  · have hprev : name ≠ "prev_hash" := by
      rintro rfl
      revert hname
      simp [GelfForwarder.gelfMembers]
    rw [hspec.hashed.index_eq hprev hself]
    exact h name hname

theorem shown_heartbeat {now : String} {pid : UInt32} {data : HealthData}
    (hpid : rereads number (.posInt pid.toUInt64) = true) :
    Shown number (heartbeatEvent now pid data) := by
  have hnumber : RoundTrips number (.number (.posInt pid.toUInt64)) 127 := ⟨trivial, hpid⟩
  simp [Shown, GelfForwarder.gelfMembers, heartbeatEvent, Value.index, Value.get?_obj,
    SortedMap.get?_cons, RoundTrips.null, RoundTrips.string, RoundTrips.bool, hnumber]

/-- What is sent is the compression of a text from which the message is read. -/
def ReadBack (fromSlice : FromSlice) (g : GelfForwarder) (message : Value) : Prop :=
  ∃ event plain, g.toGelf event = some message ∧ fromSlice plain = some message ∧
    ∀ gzip, g.send gzip event = gzip plain

theorem readBack_of_shown (hreads : ReadsJson number fromSlice) {g : GelfForwarder}
    {event message : Value} (hshown : Shown number event) (h : g.toGelf event = some message) :
    ReadBack fromSlice g message := by
  refine ⟨event, Utf8.encode message.render.toList, h, ?_, fun gzip => ?_⟩
  · rw [hreads.read, Utf8.decode_encode, Option.bind_some]
    exact (roundTrips_toGelf hreads hshown h).readText
  · rw [GelfForwarder.send, h, Option.bind_some]

/-- In every run on events from datagrams and from capture, whatever the rows of the audited tables
hold and whatever the database does, each message handed to the socket is the compression of a
JSON text from which the same message is read. -/
theorem stream_reads_back (hreads : ReadsJson number fromSlice) (fromStr : String → Option Value)
    (g : GelfForwarder) (pid : UInt32) (hpid : rereads number (.posInt pid.toUInt64) = true)
    (input : TimestamptzInput) (actions : List ForwardingAction) (s : Forwarding)
    (hrun : run (Forwarding.step g pid input) Forwarding.new actions = some s)
    (harrived : ∀ event, .loop (.receive event) ∈ actions →
      Arrived number fromSlice fromStr event) :
    ∀ message ∈ s.messages, ReadBack fromSlice g message := by
  refine run_invariant (Forwarding.step g pid input)
    (I := fun s => ∀ message ∈ s.messages, ReadBack fromSlice g message)
    (C := fun a => ∀ event, a = .loop (.receive event) → Arrived number fromSlice fromStr event)
    ?_ (by simp [Forwarding.new]) hrun (fun a ha event heq => harrived event (heq ▸ ha))
  intro u a v hu ha hstep
  rcases Forwarding.step_cases hstep with ⟨event, applied, message, rfl, -, happly, hgelf, hm⟩ |
    ⟨b, -, -, -, hm⟩ | ⟨now, message, -, -, hgelf, hm⟩
  · rw [hm, List.forall_mem_append]
    have hshown := shown_hashed ((ha event rfl).shown hreads) happly
    exact ⟨hu, by simpa using readBack_of_shown hreads hshown hgelf⟩
  · rw [hm]
    exact hu
  · rw [hm, List.forall_mem_append]
    exact ⟨hu, by simpa using readBack_of_shown hreads (shown_heartbeat hpid) hgelf⟩

/-- A login is forwarded, and a heartbeat. -/
theorem stream_reads_back_login :
    ∃ s, run (Forwarding.step ⟨"forwarder"⟩ 7 isoInput) Forwarding.new forwardedActions = some s ∧
      s.messages.length = 2 ∧ ∀ message ∈ s.messages,
        ReadBack (fun bytes => (Utf8.decode bytes).bind (readText readInteger)) ⟨"forwarder"⟩
          message := by
  have hend : (run (Forwarding.step ⟨"forwarder"⟩ 7 isoInput) Forwarding.new
      forwardedActions).any (fun s => s.messages.length == 2) = true := by decide +kernel
  obtain ⟨s, hs, hmessages⟩ := (Option.any_eq_true _ _).mp hend
  have hlogin : RoundTrips readInteger millisEvent 128 := by
    refine RoundTrips.obj (by decide) ?_
    simp [RoundTrips.null, RoundTrips.string]
  have hread : (Utf8.decode (Utf8.encode millisEvent.render.toList)).bind (readText readInteger) =
      some millisEvent := by
    rw [Utf8.decode_encode, Option.bind_some]
    exact hlogin.readText
  refine ⟨s, hs, by simpa using hmessages, stream_reads_back readsJson_integers
    millisEnvironment.fromStr ⟨"forwarder"⟩ 7 (by decide +kernel) isoInput forwardedActions s hs ?_⟩
  intro event hevent
  obtain rfl : event = millisEvent := by simpa [forwardedActions] using hevent
  exact .datagram hread hlogin.numbers

/-! ## Details -/

def IsDoc (doc : Option Value) : Prop :=
  ∀ v, doc = some v → ∃ m : Map, v = .object m ∧ SortedMap.Sorted m

theorem isDoc_columnsToJsonb (fromStr : String → Option Value) (columns : List ParsedColumn) :
    IsDoc (some (columnsToJsonb fromStr columns)) := by
  rintro v hv
  obtain rfl := Option.some.inj hv
  exact ⟨_, columnsToJsonb_eq fromStr columns, SortedMap.sorted_ofList _⟩

/-- The documents of a row change are objects with their members in order. -/
theorem isDoc_rowDocs {fromStr : String → Option Value} {commandTag : String}
    {columns : List ParsedColumn} {old new : Option Value}
    (h : rowDocs fromStr commandTag columns = some (old, new)) : IsDoc old ∧ IsDoc new := by
  have hnone : IsDoc none := by simp [IsDoc]
  unfold rowDocs at h
  split_ifs at h
  · obtain ⟨rfl, rfl⟩ := Prod.mk.inj (Option.some.inj h)
    exact ⟨hnone, isDoc_columnsToJsonb fromStr _⟩
  · obtain ⟨rfl, rfl⟩ := Prod.mk.inj (Option.some.inj h)
    refine ⟨?_, isDoc_columnsToJsonb fromStr _⟩
    split_ifs
    · exact hnone
    · exact isDoc_columnsToJsonb fromStr _
  · obtain ⟨rfl, rfl⟩ := Prod.mk.inj (Option.some.inj h)
    exact ⟨isDoc_columnsToJsonb fromStr _, hnone⟩

theorem IsDoc.redact {doc : Option Value} (h : IsDoc doc) (found : List SensitiveMatch) :
    IsDoc (doc.map fun d => SensitiveFieldRegistry.redact d found) := by
  intro v hv
  obtain ⟨d, hd, rfl⟩ := Option.map_eq_some_iff.mp hv
  obtain ⟨m, rfl, hm⟩ := h d hd
  exact ⟨_, rfl, sorted_foldl_redactOne hm found⟩

/-- A document nests as deep as its members. -/
theorem IsDoc.within_iff {doc : Option Value} (h : IsDoc doc) {depth : Nat} (hdepth : 0 < depth) :
    (doc.getD .null).Within (depth + 1) ↔
      ∀ name v, member doc name = some v → v.Within depth := by
  cases doc with
  | none => simp [Value.Within]
  | some d =>
    obtain ⟨m, rfl, hm⟩ := h d rfl
    rw [Option.getD_some, Value.within_object]
    constructor
    · rintro ⟨-, -, hall⟩ name v hv
      exact hall _ (SortedMap.mem_of_get? hv)
    · refine fun hall => ⟨by omega, hm, fun p hp => hall p.1 p.2 ?_⟩
      exact SortedMap.get?_of_mem hm hp

/-- The detail of a change nests two levels deeper than its documents. -/
theorem within_detail_iff (now commandTag schema table xid lsn : String) {old new : Option Value}
    (changedFields : List String) (found : List SensitiveMatch) :
    ((buildDataChangeEvent now commandTag schema table old new changedFields found xid lsn).index
      "detail").Within 128 ↔
        (old.getD .null).Within 127 ∧ (new.getD .null).Within 127 := by
  have hnames : ∀ xs : List String, (Value.array (xs.map .string)).Within 127 := by
    intro xs
    refine Value.within_array.mpr ⟨by decide, fun x hx => ?_⟩
    obtain ⟨s, -, rfl⟩ := List.mem_map.mp hx
    trivial
  have hpaths : (Value.array (found.map fun m => .string m.jsonPath)).Within 127 := by
    simpa [Function.comp_def] using hnames (found.map SensitiveMatch.jsonPath)
  have hscalar : ∀ s : String, (Value.string s).Within 127 := fun _ => trivial
  rw [buildDataChangeEvent,
    Value.index_eq_of_get? (by simp [Value.get?_obj, SortedMap.get?_cons]; rfl),
    Value.within_obj (by simp)]
  simp only [List.forall_mem_cons, hscalar, hnames, true_and]
  simpa using fun _ _ => hpaths

theorem isNull_detail {fromStr : String → Option Value} {registry : SensitiveFieldRegistry}
    {now xid lsn : String} {line : ChangeLine} {event : Value}
    (h : changeEvent fromStr registry now xid lsn line = some event) :
    (event.index "detail").isNull = false := by
  simp only [changeEvent, Option.bind_eq_bind, Option.bind_eq_some_iff, Option.pure_def,
    Option.some.injEq] at h
  obtain ⟨docs, -, rfl⟩ := h
  rw [buildDataChangeEvent,
    Value.index_eq_of_get? (by simp [Value.get?_obj, SortedMap.get?_cons]; rfl)]
  rfl

/-- What stands in place of a redacted cell does not nest. -/
theorem within_shown {shown cell : Option Value} {hidden : Prop} {depth : Nat}
    (hredacted : hidden → shown = cell.map fun _ => redacted) (hkept : ¬ hidden → shown = cell)
    (hcell : ¬ hidden → ∀ v, cell = some v → v.Within depth) :
    ∀ v, shown = some v → v.Within depth := by
  intro v hv
  by_cases h : hidden
  · rw [hredacted h] at hv
    obtain ⟨-, -, rfl⟩ := Option.map_eq_some_iff.mp hv
    trivial
  · exact hcell h v (hkept h ▸ hv)

/-- The detail that is bound for a captured row is read back exactly when no document that it
shows nests deeper than 125 levels; a deeper one does no harm where it is redacted. -/
theorem captured_detail_reads_back_iff (number : List Char → Option Number)
    (fromStr : String → Option Value) (registry : SensitiveFieldRegistry) (now xid lsn : String)
    (line : ChangeLine) (event : Value) (hrow : IsRowChange line)
    (hevent : changeEvent fromStr registry now xid lsn line = some event)
    (hnumbers : (event.index "detail").every (rereads number) (fun _ => true) = true) :
    ((boundRow event).detail.bind fun text => readText number text.toList) =
        some (event.index "detail") ↔
      ∀ name, ¬ Covered fromStr registry line name → ∀ v,
        oldCell fromStr line name = some v ∨ newCell fromStr line name = some v →
          v.Within 126 := by
  have hdetail : (boundRow event).detail = some (event.index "detail").render := by
    rw [boundRow, if_neg]
    simp [isNull_detail hevent]
  rw [hdetail, Option.bind_some, readText_render_iff hnumbers]
  obtain ⟨event', hevent', hspec⟩ := changeEvent_spec fromStr registry now xid lsn hrow
  obtain rfl := Option.some.inj (hevent.symm.trans hevent')
  have hbuilt := hevent
  simp only [changeEvent, Option.bind_eq_bind, Option.bind_eq_some_iff, Option.pure_def,
    Option.some.injEq, redact_unless_empty] at hbuilt
  obtain ⟨⟨old, new⟩, hdocs, rfl⟩ := hbuilt
  obtain ⟨hold, hnew⟩ := isDoc_rowDocs hdocs
  rw [within_detail_iff, (hold.redact _).within_iff (by decide),
    (hnew.redact _).within_iff (by decide)]
  constructor
  · rintro ⟨hallOld, hallNew⟩ name hfree v hv
    have hkept := hspec.kept name hfree
    rw [(detailMember_build ..).1, (detailMember_build ..).2] at hkept
    rcases hv with hv | hv
    · exact hallOld name v (hkept.1.trans hv)
    · exact hallNew name v (hkept.2.trans hv)
  · refine fun hall => ⟨fun name => ?_, fun name => ?_⟩
    · exact within_shown
        (fun hcovered => (detailMember_build ..).1.symm.trans (hspec.covered name hcovered).1)
        (fun hfree => (detailMember_build ..).1.symm.trans (hspec.kept name hfree).1)
        (fun hfree v hv => hall name hfree v (.inl hv))
    · exact within_shown
        (fun hcovered => (detailMember_build ..).2.symm.trans (hspec.covered name hcovered).2)
        (fun hfree => (detailMember_build ..).2.symm.trans (hspec.kept name hfree).2)
        (fun hfree v hv => hall name hfree v (.inr hv))

end

def ordersLine : ChangeLine := ⟨"INSERT", "public", "orders", [⟨"lines", "[7,[1]]", false⟩]⟩

def fromStrInteger (text : String) : Option Value := readText readInteger text.toList

theorem captured_detail_reads_back_iff_orders :
    ∃ event, changeEvent fromStrInteger emptyRegistry "2026-01-01T00:00:00.000Z" "744"
        "0/16B3800" ordersLine = some event ∧
      (((boundRow event).detail.bind fun text => readText readInteger text.toList) =
          some (event.index "detail") ↔
        ∀ name, ¬ Covered fromStrInteger emptyRegistry ordersLine name → ∀ v,
          oldCell fromStrInteger ordersLine name = some v ∨
            newCell fromStrInteger ordersLine name = some v → v.Within 126) := by
  have hevery : (changeEvent fromStrInteger emptyRegistry "2026-01-01T00:00:00.000Z" "744"
      "0/16B3800" ordersLine).any (fun event =>
        (event.index "detail").every (rereads readInteger) (fun _ => true)) = true := by
    decide +kernel
  obtain ⟨event, hevent, hnumbers⟩ := (Option.any_eq_true _ _).mp hevery
  exact ⟨event, hevent, captured_detail_reads_back_iff readInteger fromStrInteger emptyRegistry
    _ _ _ ordersLine event (.inl rfl) hevent hnumbers⟩

end VibeAudit.Delivery

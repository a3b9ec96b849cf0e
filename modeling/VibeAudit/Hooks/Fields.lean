import VibeAudit.Hooks.Escape
import VibeAudit.Json.Spans

/-!
# Events as fields

An event of the hooks is a list of named fields: names that are printed as they
are, the escaped text of a query, and values that are fixed or numbers. This
module says what a JSON reader makes of such an event: the document of its
fields, if every name stays within its quotes; and if the document has the names
that were printed, they were plain.
-/

namespace VibeAudit.Hooks

open Foundation Extension

/-! ## Printed bytes -/

@[simp] theorem quoted_encode (s : List Char) :
    quoted (Utf8.encode s) = Utf8.encode ('"' :: (s ++ ['"'])) := by
  rw [quoted, Utf8.encode_cons, Utf8.encode_append]
  rfl

/-- A member whose text is UTF-8, as characters. -/
structure Spelled (m : EventMember) (m' : Json.Member) : Prop where
  key : m'.key = m.key.toList
  text : m.text = Utf8.encode m'.text

theorem Spelled.print {m : EventMember} {m' : Json.Member} (h : Spelled m m') :
    m.print = Utf8.encode m'.print := by
  have hcolon : ∀ s, Utf8.encode (':' :: s) = 0x3A :: Utf8.encode s := fun _ => rfl
  rw [EventMember.print, bytes, quoted_encode, h.text, ← hcolon, ← Utf8.encode_append,
    Json.Member.print, h.key, List.cons_append, List.append_assoc, List.singleton_append]

theorem printMembers_eq {ms : List EventMember} {ms' : List Json.Member}
    (h : List.Forall₂ Spelled ms ms') : printMembers ms = Utf8.encode (Json.printMembers ms') := by
  induction h with
  | nil => rfl
  | cons hm hms ih =>
    cases hms with
    | nil => exact hm.print
    | cons =>
      have hcomma : ∀ s, Utf8.encode (',' :: s) = 0x2C :: Utf8.encode s := fun _ => rfl
      rw [printMembers, Json.printMembers, hm.print, ih, ← hcomma, ← Utf8.encode_append]
      all_goals exact List.cons_ne_nil _ _

theorem printEvent_eq {ms : List EventMember} {ms' : List Json.Member}
    (h : List.Forall₂ Spelled ms ms') : printEvent ms = Utf8.encode (Json.printObject ms') := by
  rw [printEvent, printMembers_eq h, Json.printObject, Utf8.encode_cons, Utf8.encode_append]
  rfl

/-! ## Fields -/

/-- What a member of an event says. -/
inductive Field where
  | text (raw : String)
  | query (s : String)
  | null
  | bool (b : Bool)
  | int (n : Int32)
  | reason (s : String)
  | superuser

def Field.chars : Field → List Char
  | .text raw => '"' :: (raw.toList ++ ['"'])
  | .query s => '"' :: (s.toList.flatMap escapeChar ++ ['"'])
  | .null => "null".toList
  | .bool b => (if b then "true" else "false").toList
  | .int n => (toString n).toList
  | .reason s => Json.printObject [⟨"reason".toList, '"' :: (s.toList ++ ['"'])⟩]
  | .superuser => Json.printObject [⟨"superuser".toList, "true".toList⟩]

/-- The member of this name that says it. -/
def fieldMember (f : String × Field) : EventMember := ⟨f.1, Utf8.encode f.2.chars⟩

def fieldText (f : String × Field) : Json.Member := ⟨f.1.toList, f.2.chars⟩

theorem printEvent_fields (fs : List (String × Field)) :
    printEvent (fs.map fieldMember) = Utf8.encode (Json.printObject (fs.map fieldText)) :=
  printEvent_eq (by
    rw [List.forall₂_map_left_iff, List.forall₂_map_right_iff, List.forall₂_same]
    exact fun f _ => ⟨rfl, rfl⟩)

def intValue (n : Int32) : Json.Value :=
  .number (if 0 ≤ n then .posInt n.toInt64.toUInt64 else .negInt n.toInt64)

def Field.value : Field → Json.Value
  | .text raw => .string (String.ofList ((Json.unescape raw.toList).getD []))
  | .query s => .string s
  | .null => .null
  | .bool b => .bool b
  | .int n => intValue n
  | .reason s => .obj [("reason", .string s)]
  | .superuser => .obj [("superuser", .bool true)]

/-- The text between quotes is the text of a literal. -/
structure Closed (raw : String) : Prop where
  literal : Json.IsLiteral raw.toList
  spells : (Json.unescape raw.toList).isSome = true

/-- A name without quotes, backslashes and control characters. -/
def Plain (s : String) : Prop := s.toList.all Json.isPlainChar = true

instance (s : String) : Decidable (Plain s) := inferInstanceAs (Decidable (_ = true))

theorem Plain.closed {s : String} (h : Plain s) : Closed s :=
  ⟨Json.isLiteral_of_plain h, by rw [Json.unescape_plain h]; rfl⟩

theorem Plain.value_text {s : String} (h : Plain s) : (Field.text s).value = .string s := by
  rw [Field.value, Json.unescape_plain h, Option.getD_some, String.ofList_toList]

/-- The names of a field are texts of literals. -/
def Field.IsClosed : Field → Prop
  | .text raw => Closed raw
  | .reason s => Plain s
  | _ => True

/-! ## Reading an event -/

/-- A number is printed with digits and a sign. -/
theorem mem_toString {n : Int32} {c : Char} (h : c ∈ (toString n).toList) :
    c.isDigit = true ∨ c = '-' := by
  have htext : toString n = n.toInt.repr := rfl
  rw [htext, Int.repr_eq_if] at h
  have hdigits : ∀ k : Nat, c ∈ k.repr.toList → c.isDigit = true := by
    intro k hk
    rw [Nat.toList_repr] at hk
    exact Nat.isDigit_of_mem_toDigits (by decide) (by decide) hk
  split_ifs at h
  · exact .inl (hdigits _ h)
  · rw [String.toList_append, List.mem_append] at h
    rcases h with h | h
    · exact .inr (by simpa using h)
    · exact .inl (hdigits _ h)

theorem length_toString (n : Int32) : (toString n).toList.length ≤ 11 := by
  have htext : toString n = n.toInt.repr := rfl
  have hlow := n.le_toInt
  have hhigh := n.toInt_lt
  have hdigits : ∀ k : Nat, k < 10 ^ 10 → k.repr.toList.length ≤ 10 := by
    intro k hk
    rw [String.length_toList]
    exact (Nat.length_repr_le_iff (by decide)).mpr hk
  rw [htext, Int.repr_eq_if]
  split_ifs
  · have := hdigits n.toInt.toNat (by omega)
    omega
  · have := hdigits (-n.toInt).toNat (by omega)
    rw [String.toList_append, List.length_append]
    have hsign : "-".toList.length = 1 := rfl
    omega

theorem toString_ne_nil (n : Int32) : (toString n).toList ≠ [] := by
  have htext : toString n = n.toInt.repr := rfl
  rw [htext, Int.repr_eq_if]
  split_ifs
  · rw [Nat.toList_repr]
    exact Nat.toDigits_ne_nil
  · rw [String.toList_append]
    exact List.append_ne_nil_of_left_ne_nil (by decide) _

theorem isWordChar_of_mem_toString {n : Int32} {c : Char} (h : c ∈ (toString n).toList) :
    Json.isWordChar c = true := by
  rcases mem_toString h with hdigit | rfl
  · have hnot : ∀ d ∈ ['\x7b', '\x7d', '[', ']', ':', ',', ' ', '\t', '\n', '\r', '"'],
        d.isDigit = false := List.all_iff_forall_prop.mp (by decide)
    have hmark : c ∉ ['\x7b', '\x7d', '[', ']', ':', ',', ' ', '\t', '\n', '\r', '"'] := by
      intro hmem
      rw [hnot c hmem] at hdigit
      cases hdigit
    simp only [List.mem_cons, List.not_mem_nil, or_false, not_or] at hmark
    simp [Json.isWordChar, Json.isMark, Json.isBlank, hmark]
  · decide

variable {number : List Char → Option Json.Number} {fromSlice : List UInt8 → Option Json.Value}

theorem readWord_int (hreads : Json.ReadsJson number fromSlice) (n : Int32) :
    Json.readWord number (toString n).toList = some (intValue n) := by
  have hne : ∀ w : String, ∀ c ∈ w.toList, ¬ (c.isDigit = true ∨ c = '-') →
      (toString n).toList ≠ w.toList := by
    intro w c hc hnot heq
    rw [← heq] at hc
    exact hnot (mem_toString hc)
  rw [Json.readWord, if_neg (hne "null" 'n' (by decide) (by decide)),
    if_neg (hne "true" 't' (by decide) (by decide)),
    if_neg (hne "false" 'f' (by decide) (by decide)), hreads.int]
  rfl

/-- What a field says is what is read of it. -/
theorem denotes_field (hreads : Json.ReadsJson number fromSlice) {f : Field} (h : f.IsClosed) :
    Json.Denotes number 1 f.chars f.value := by
  have hmember : ∀ (key : String) (text : List Char) (value : Json.Value),
      key.toList.all Json.isPlainChar = true → Json.Denotes number 0 text value →
      Json.Denotes number 1 (Json.printObject [⟨key.toList, text⟩]) (.obj [(key, value)]) :=
    fun key text value hkey hvalue => Json.denotes_object
      (.cons (Json.MemberDenotes.reads ⟨hkey, String.ofList_toList.symm, hvalue⟩) .nil)
      (List.cons_ne_nil _ _)
  have hword : ∀ (w : String) (value : Json.Value), w.toList.all Json.isWordChar = true →
      w.toList ≠ [] → Json.readWord number w.toList = some value →
      Json.Denotes number 1 w.toList value :=
    fun w value hw hne hread => (Json.denotes_word number hw hne hread).mono number (by decide)
  cases f with
  | text raw =>
    obtain ⟨s, hs⟩ := Option.isSome_iff_exists.mp h.spells
    have hvalue := Json.denotes_literal number h.literal hs
    rw [Field.value, hs, Option.getD_some]
    exact hvalue.mono number (by decide)
  | query s =>
    have hvalue := Json.denotes_literal number (isLiteral_flatMap_escapeChar s.toList)
      (unescape_flatMap_escapeChar s.toList)
    rw [String.ofList_toList] at hvalue
    exact hvalue.mono number (by decide)
  | null => exact hword "null" .null (by decide) (by decide) (by simp [Json.readWord])
  | bool b =>
    cases b with
    | true => exact hword "true" (.bool true) (by decide) (by decide) (by simp [Json.readWord])
    | false => exact hword "false" (.bool false) (by decide) (by decide) (by simp [Json.readWord])
  | int n =>
    exact hword (toString n) (intValue n)
      (List.all_eq_true.mpr fun c => isWordChar_of_mem_toString) (toString_ne_nil n)
      (readWord_int hreads n)
  | reason s =>
    have hvalue := Json.denotes_literal number (Json.isLiteral_of_plain h) (Json.unescape_plain h)
    rw [String.ofList_toList] at hvalue
    exact hmember "reason" _ _ (by decide) hvalue
  | superuser =>
    exact hmember "superuser" _ (.bool true) (by decide)
      (Json.denotes_word number (by decide) (by decide) (by simp [Json.readWord]))

/-- The names of members are plain. -/
def Named (fs : List (String × Field)) : Prop :=
  fs ≠ [] ∧ ∀ f ∈ fs, Json.IsName f.1.toList

def document (fs : List (String × Field)) : Json.Value := .obj (fs.map fun f => (f.1, f.2.value))

/-- An event whose names stay within their quotes is read as the document of its fields. -/
theorem fromSlice_fields (hreads : Json.ReadsJson number fromSlice) {fs : List (String × Field)}
    (hnamed : Named fs) (hclosed : ∀ f ∈ fs, f.2.IsClosed) :
    fromSlice (printEvent (fs.map fieldMember)) = some (document fs) := by
  rw [hreads.read, printEvent_fields, Utf8.decode_encode, Option.bind_some]
  refine Json.readText_printObject ?_ (by simpa using hnamed.1) (show 1 < 127 by decide)
  rw [List.forall₂_map_left_iff, List.forall₂_map_right_iff, List.forall₂_same]
  exact fun f hf => ⟨(hnamed.2 f hf).plain, String.ofList_toList.symm,
    denotes_field hreads (hclosed f hf)⟩

/-! ## What a read event says of its names -/

/-- The fields of an event: the text of a query has its own name, names are under others, and the
last field is no name. -/
structure IsEvent (fs : List (String × Field)) : Prop where
  named : Named fs
  query : ∀ f ∈ fs, ∀ s, f.2 = .query s → f.1 = "query_text"
  text : ∀ f ∈ fs, ∀ raw, f.2 = .text raw → f.1 ≠ "query_text"
  reason : ∀ f ∈ fs, ∀ s, f.2 = .reason s → Plain s
  last : ∀ f, fs.getLast? = some f → ∀ raw, f.2 ≠ .text raw

/-- A field that is printed in quotes is a name or a query. -/
theorem eq_of_chars_quoted {f : Field} {raw : List Char} (h : f.chars = '"' :: (raw ++ ['"'])) :
    f = .text (String.ofList raw) ∨ ∃ s, f = .query s := by
  cases f with
  | text s =>
    have hraw : s.toList = raw := List.append_cancel_right (List.cons.inj h).2
    exact .inl (by rw [← hraw, String.ofList_toList])
  | query s => exact .inr ⟨s, rfl⟩
  | bool b => cases b <;> cases h
  | int n =>
    have hquote : '"' ∈ (toString n).toList := by
      rw [show (toString n).toList = _ from h]
      exact List.mem_cons_self
    exact absurd (mem_toString hquote) (by decide)
  | null | reason | superuser => cases h

theorem lexes_object {key text : List Char} {tokens : List Json.Token}
    (hkey : key.all Json.isPlainChar = true) (h : Json.Lexes text tokens) :
    Json.Lexes (Json.printObject [⟨key, text⟩])
      (.mark '\x7b' :: (.str key :: .mark ':' :: tokens ++ [.mark '\x7d'])) := by
  have hname := Json.lexes_literal (Json.isLiteral_of_plain hkey)
  have hmember := hname.append_mark h (show Json.isMark ':' = true by decide)
  have hclose := hmember.append_mark Json.lexes_nil (show Json.isMark '\x7d' = true by decide)
  have hobject := Json.lexes_nil.append_mark hclose (show Json.isMark '\x7b' = true by decide)
  simpa [Json.printObject, Json.printMembers, Json.Member.print] using hobject

theorem kind_of_isEvent {fs : List (String × Field)} (h : IsEvent fs) {f : String × Field}
    (hf : f ∈ fs) : Json.Kind "query_text".toList (fieldText f) := by
  have hword : ∀ w : List Char, f.2.chars = w → w.all Json.isWordChar = true → w ≠ [] →
      Json.Kind "query_text".toList (fieldText f) := by
    intro w htext hw hne
    refine .fixed [.word w] (by rw [fieldText, htext]; exact Json.lexes_word hw hne) ?_
    simp
  have hname : f.1 ≠ "query_text" → (fieldText f).key ≠ "query_text".toList :=
    fun hne heq => hne (String.toList_injective heq)
  obtain ⟨key, field⟩ := f
  cases field with
  | text raw => exact .slot raw.toList rfl (hname (h.text _ hf raw rfl))
  | query s =>
    exact .literal _ rfl (isLiteral_flatMap_escapeChar _)
      (congrArg String.toList (h.query _ hf s rfl))
  | null => exact hword "null".toList rfl (by decide) (by decide)
  | bool b =>
    cases b with
    | true => exact hword "true".toList rfl (by decide) (by decide)
    | false => exact hword "false".toList rfl (by decide) (by decide)
  | int n =>
    exact hword _ rfl (List.all_eq_true.mpr fun c => isWordChar_of_mem_toString)
      (toString_ne_nil n)
  | reason s =>
    have hplain : s.toList.all Json.isPlainChar = true := h.reason _ hf s rfl
    refine .fixed _ (lexes_object (by decide) (Json.lexes_literal
      (Json.isLiteral_of_plain hplain))) ?_
    intro raw hraw
    simp only [List.mem_cons, List.mem_append, List.not_mem_nil, or_false, reduceCtorEq, false_or,
      Json.Token.str.injEq] at hraw
    rcases hraw with rfl | rfl
    · decide
    · exact Json.not_slash_of_plain hplain
  | superuser =>
    refine .fixed _ (lexes_object (by decide)
      (Json.lexes_word (show "true".toList.all Json.isWordChar = true by decide) (by decide))) ?_
    intro raw hraw
    simp only [List.mem_cons, List.mem_append, List.not_mem_nil, or_false, reduceCtorEq, false_or,
      Json.Token.str.injEq] at hraw
    obtain rfl := hraw
    decide

/-- If every name that is not plain is read as it was printed, there is no such name. -/
theorem plain_of_fromSlice (hreads : Json.ReadsJson number fromSlice) {fs : List (String × Field)}
    (hfs : IsEvent fs) {event : Json.Value}
    (h : fromSlice (printEvent (fs.map fieldMember)) = some event)
    (hvalue : ∀ f ∈ fs, ∀ raw, f.2 = .text raw → ¬ Plain raw →
      event.get? f.1 = some (.string raw)) :
    ∀ f ∈ fs, ∀ raw, f.2 = .text raw → Plain raw := by
  rw [hreads.read, printEvent_fields, Utf8.decode_encode, Option.bind_some] at h
  have hkey : ∀ f ∈ fs, ∀ raw, (fieldText f).text = '"' :: (raw ++ ['"']) →
      (fieldText f).key ≠ "query_text".toList → f.2 = .text (String.ofList raw) := by
    intro f hf raw htext hne
    rcases eq_of_chars_quoted htext with hfield | ⟨s, hfield⟩
    · exact hfield
    · exact absurd (congrArg String.toList (hfs.query f hf s hfield)) hne
  have hne : fs.map fieldText ≠ [] := by simpa using hfs.named.1
  have hplain := Json.slots_plain hne
    (show "query_text".toList.all Json.isPlainChar = true by decide)
    (fun m hm => by
      obtain ⟨f, hf, rfl⟩ := List.mem_map.mp hm
      exact hfs.named.2 f hf)
    (fun m hm => by
      obtain ⟨f, hf, rfl⟩ := List.mem_map.mp hm
      exact kind_of_isEvent hfs hf)
    (fun m hm raw htext => by
      rw [List.getLast?_map, Option.map_eq_some_iff] at hm
      obtain ⟨f, hf, rfl⟩ := hm
      by_contra hne
      exact hfs.last f hf _ (hkey f (List.mem_of_getLast? hf) raw htext hne))
    h
    (fun m hm raw htext hne hraw => by
      obtain ⟨f, hf, rfl⟩ := List.mem_map.mp hm
      have hfield := hkey f hf raw htext hne
      have hnot : ¬ Plain (String.ofList raw) := by rwa [Plain, String.toList_ofList]
      rw [fieldText, String.ofList_toList]
      exact hvalue f hf _ hfield hnot)
  intro f hf raw hfield
  refine hplain _ (List.mem_map_of_mem hf) raw.toList ?_ ?_
  · rw [fieldText, hfield]
    rfl
  · exact fun heq => hfs.text f hf raw hfield (String.toList_injective heq)

/-! ## A text that is cut inside a character -/

/-- The fields in front of a member are printed as characters of their own. -/
theorem exists_text_append (front : List (String × Field)) (m : EventMember)
    (back : List EventMember) :
    ∃ text rest, printMembers (front.map fieldMember ++ m :: back) =
      Utf8.encode text ++ (m.print ++ rest) := by
  induction front with
  | nil =>
    cases back with
    | nil => exact ⟨[], [], by simp [printMembers]⟩
    | cons n back => exact ⟨[], 0x2C :: printMembers (n :: back), rfl⟩
  | cons f front ih =>
    obtain ⟨text, rest, hrest⟩ := ih
    obtain ⟨n, ns, hns⟩ : ∃ n ns, front.map fieldMember ++ m :: back = n :: ns :=
      List.exists_cons_of_ne_nil (by simp)
    have hcomma : ∀ s, Utf8.encode (',' :: s) = 0x2C :: Utf8.encode s := fun _ => rfl
    have hf : Spelled (fieldMember f) (fieldText f) := ⟨rfl, rfl⟩
    refine ⟨(fieldText f).print ++ ',' :: text, rest, ?_⟩
    rw [List.map_cons, List.cons_append, hns, printMembers, ← hns, hrest, hf.print,
      Utf8.encode_append, hcomma]
    · simp
    · exact List.cons_ne_nil _ _

/-- An event with a text that is cut inside a character is no UTF-8. -/
theorem fromSlice_cut (hreads : Json.ReadsJson number fromSlice) (front : List (String × Field))
    (key : String) (a : List Char) (c : Char) {k : Nat} (hk : 0 < k) (hcut : k < c.utf8Size)
    (back : List EventMember) :
    fromSlice (printEvent (front.map fieldMember ++
      ⟨key, quoted (Utf8.encode a ++ (String.utf8EncodeChar c).take k)⟩ :: back)) = none := by
  obtain ⟨text, rest, hrest⟩ := exists_text_append front
    ⟨key, quoted (Utf8.encode a ++ (String.utf8EncodeChar c).take k)⟩ back
  have hprint : printEvent (front.map fieldMember ++
      ⟨key, quoted (Utf8.encode a ++ (String.utf8EncodeChar c).take k)⟩ :: back) =
      Utf8.encode ('\x7b' :: (text ++ ('"' :: (key.toList ++ '"' :: ':' :: '"' :: a)))) ++
        ((String.utf8EncodeChar c).take k ++ 0x22 :: (rest ++ [0x7D])) := by
    have hquote : ∀ s, Utf8.encode ('"' :: s) = 0x22 :: Utf8.encode s := fun _ => rfl
    have hcolon : ∀ s, Utf8.encode (':' :: s) = 0x3A :: Utf8.encode s := fun _ => rfl
    have hopen : ∀ s, Utf8.encode ('\x7b' :: s) = 0x7B :: Utf8.encode s := fun _ => rfl
    rw [printEvent, hrest]
    simp [EventMember.print, quoted, bytes, hquote, hcolon, hopen]
  rw [hreads.read, hprint, Utf8.decode_cut_eq_none _ c hk hcut (by decide)]
  rfl

end VibeAudit.Hooks

import VibeAudit.Json.Spans

/-!
# Printing and reading

A value that is read from a text has its objects in order and nests up to the
limit, and any such value is read back from its own text. Only a number may get
lost: its text has to denote it again.
-/

namespace VibeAudit.Json

open Foundation

namespace Value

mutual

/-- The members of all objects are in order, and the nesting is below `depth`. -/
def Within : Value → Nat → Prop
  | .array xs, depth => 1 < depth ∧ WithinElements xs (depth - 1)
  | .object m, depth => 1 < depth ∧ SortedMap.Sorted m ∧ WithinMembers m (depth - 1)
  | _, _ => True

def WithinElements : List Value → Nat → Prop
  | [], _ => True
  | x :: xs, depth => x.Within depth ∧ WithinElements xs depth

def WithinMembers : List (String × Value) → Nat → Prop
  | [], _ => True
  | (_, x) :: m, depth => x.Within depth ∧ WithinMembers m depth

end

theorem withinElements_iff {xs : List Value} {depth : Nat} :
    WithinElements xs depth ↔ ∀ x ∈ xs, x.Within depth := by
  induction xs with
  | nil => simp [WithinElements]
  | cons x xs ih => simp [WithinElements, ih]

theorem withinMembers_iff {m : List (String × Value)} {depth : Nat} :
    WithinMembers m depth ↔ ∀ p ∈ m, p.2.Within depth := by
  induction m with
  | nil => simp [WithinMembers]
  | cons p m ih =>
    obtain ⟨k, x⟩ := p
    simp [WithinMembers, ih]

theorem within_array {xs : List Value} {depth : Nat} :
    (Value.array xs).Within depth ↔ 1 < depth ∧ ∀ x ∈ xs, x.Within (depth - 1) := by
  rw [Within, withinElements_iff]

theorem within_object {m : Map} {depth : Nat} : (Value.object m).Within depth ↔
    1 < depth ∧ SortedMap.Sorted m ∧ ∀ p ∈ m, p.2.Within (depth - 1) := by
  rw [Within, withinMembers_iff]

theorem within_obj {members : List (String × Value)} (h : (members.map Prod.fst).Nodup)
    {depth : Nat} : (obj members).Within depth ↔
      1 < depth ∧ ∀ p ∈ members, p.2.Within (depth - 1) := by
  rw [obj, within_object]
  simp [SortedMap.mem_ofList h, SortedMap.sorted_ofList]

mutual

theorem Within.mono : ∀ {v : Value} {depth deeper : Nat}, v.Within depth → depth ≤ deeper →
    v.Within deeper
  | .array _, _, _, h, hle =>
    ⟨Nat.lt_of_lt_of_le h.1 hle, WithinElements.mono h.2 (Nat.sub_le_sub_right hle 1)⟩
  | .object _, _, _, h, hle =>
    ⟨Nat.lt_of_lt_of_le h.1 hle, h.2.1, WithinMembers.mono h.2.2 (Nat.sub_le_sub_right hle 1)⟩
  | .null, _, _, _, _ | .bool _, _, _, _, _ | .number _, _, _, _, _
  | .string _, _, _, _, _ => trivial

theorem WithinElements.mono : ∀ {xs : List Value} {depth deeper : Nat},
    WithinElements xs depth → depth ≤ deeper → WithinElements xs deeper
  | [], _, _, _, _ => trivial
  | _ :: _, _, _, h, hle => ⟨Within.mono h.1 hle, WithinElements.mono h.2 hle⟩

theorem WithinMembers.mono : ∀ {m : List (String × Value)} {depth deeper : Nat},
    WithinMembers m depth → depth ≤ deeper → WithinMembers m deeper
  | [], _, _, _, _ => trivial
  | _ :: _, _, _, h, hle => ⟨Within.mono h.1 hle, WithinMembers.mono h.2 hle⟩

end

/-- A member is nested less deep than its object. -/
theorem Within.index {v : Value} {depth : Nat} (h : v.Within (depth + 1)) (key : String) :
    (v.index key).Within depth := by
  cases v with
  | object m =>
    rw [Value.index, get?_object]
    cases hget : SortedMap.get? m key with
    | none => trivial
    | some x => exact (within_object.mp h).2.2 _ (SortedMap.mem_of_get? hget)
  | null | bool | number | string | array => trivial

end Value

/-! ## What is read -/

section

variable {number : List Char → Option Number}

/-- What is parsed nests no deeper than the parser goes, and the members of its objects are in
order. -/
theorem parse_within (fuel : Nat) :
    (∀ depth tokens value rest, parseValue number fuel depth tokens = some (value, rest) →
      value.Within depth) ∧
    (∀ depth m tokens value rest, parseMembers number fuel depth m tokens = some (value, rest) →
      SortedMap.Sorted m → (∀ p ∈ m, p.2.Within depth) →
      ∃ n : Map, value = .object n ∧ SortedMap.Sorted n ∧ ∀ p ∈ n, p.2.Within depth) ∧
    (∀ depth xs tokens value rest, parseElements number fuel depth xs tokens = some (value, rest) →
      (∀ x ∈ xs, x.Within depth) → ∃ ys, value = .array ys ∧ ∀ y ∈ ys, y.Within depth) := by
  induction fuel with
  | zero => simp [parseValue, parseMembers, parseElements]
  | succ fuel ih =>
    obtain ⟨ihValue, ihMembers, ihElements⟩ := ih
    refine ⟨?_, ?_, ?_⟩
    · intro depth tokens value rest h
      rcases parseValue_cases h with ⟨w, rfl, hw⟩ | ⟨raw, s, rfl, hs, rfl⟩ | ⟨hdepth, rfl, rfl⟩ |
        ⟨inner, hdepth, rfl, hinner⟩ | ⟨hdepth, rfl, rfl⟩ | ⟨inner, hdepth, rfl, hinner⟩
      · rw [readWord] at hw
        split_ifs at hw
        · obtain rfl := Option.some.inj hw
          trivial
        · obtain rfl := Option.some.inj hw
          trivial
        · obtain rfl := Option.some.inj hw
          trivial
        · obtain ⟨n, -, rfl⟩ := Option.map_eq_some_iff.mp hw
          trivial
      · trivial
      · exact Value.within_object.mpr ⟨hdepth, .nil, by simp⟩
      · obtain ⟨n, rfl, hsorted, hmembers⟩ := ihMembers _ _ _ _ _ hinner .nil (by simp)
        exact Value.within_object.mpr ⟨hdepth, hsorted, hmembers⟩
      · exact Value.within_array.mpr ⟨hdepth, by simp⟩
      · obtain ⟨ys, rfl, helements⟩ := ihElements _ _ _ _ _ hinner (by simp)
        exact Value.within_array.mpr ⟨hdepth, helements⟩
    · intro depth m tokens value rest h hsorted hm
      obtain ⟨raw, key, inner, v, behind, rfl, hkey, hvalue, hbehind⟩ := parseMembers_cases h
      have hnext := SortedMap.sorted_insert hsorted (String.ofList key) v
      have hall : ∀ p ∈ SortedMap.insert m (String.ofList key) v, p.2.Within depth := by
        intro p hp
        rcases SortedMap.mem_insert hp with rfl | hp
        · exact ihValue _ _ _ _ hvalue
        · exact hm p hp
      rcases hbehind with ⟨next, rfl, hrest⟩ | ⟨rfl, rfl⟩
      · exact ihMembers _ _ _ _ _ hrest hnext hall
      · exact ⟨_, rfl, hnext, hall⟩
    · intro depth xs tokens value rest h hxs
      obtain ⟨v, behind, hvalue, hbehind⟩ := parseElements_cases h
      have hall : ∀ x ∈ xs ++ [v], x.Within depth := by
        rw [List.forall_mem_append]
        exact ⟨hxs, by simpa using ihValue _ _ _ _ hvalue⟩
      rcases hbehind with ⟨next, rfl, hrest⟩ | ⟨rfl, rfl⟩
      · exact ihElements _ _ _ _ _ hrest hall
      · exact ⟨_, rfl, hall⟩

theorem within_of_readText {text : List Char} {v : Value} (h : readText number text = some v) :
    v.Within 128 := by
  obtain ⟨tokens, -, h⟩ := Option.bind_eq_some_iff.mp h
  obtain ⟨⟨w, rest⟩, hparse, h⟩ := Option.bind_eq_some_iff.mp h
  simp only at h
  split_ifs at h
  obtain rfl := Option.some.inj h
  exact (parse_within _).1 _ _ _ _ hparse

/-! ## What is printed -/

theorem units_escapeChar (c : Char) (s : List Char) :
    units (Value.escapeChar c ++ s) = (units s).map (c.toNat :: ·) := by
  unfold Value.escapeChar
  split <;> try simp [units, shortEscape]
  split_ifs with hb hf hcontrol
  · subst hb
    simp [units, shortEscape]
  · subst hf
    simp [units, shortEscape]
  · exact units_escapeControl hcontrol s
  · have hplain : isPlainChar c = true := by
      simp_all [isPlainChar]
    exact units_cons_plain hplain s

theorem isLiteral_escapeChar (c : Char) : IsLiteral (Value.escapeChar c) := by
  unfold Value.escapeChar
  split <;> try exact isLiteral_escape _
  split_ifs with hb hf hcontrol
  · exact isLiteral_escape 'b'
  · exact isLiteral_escape 'f'
  · exact isLiteral_escapeControl hcontrol
  · exact isLiteral_singleton (by assumption) (by assumption)

/-- What stands between the quotes of a printed string. -/
def escapedText (s : String) : List Char := s.toList.flatMap Value.escapeChar

theorem toList_quote (s : String) : (Value.quote s).toList = '"' :: (escapedText s ++ ['"']) := by
  simp [Value.quote, escapedText]

theorem unescape_escapedText (s : String) : unescape (escapedText s) = some s.toList :=
  unescape_flatMap units_escapeChar s.toList

theorem isLiteral_escapedText (s : String) : IsLiteral (escapedText s) :=
  isLiteral_flatMap isLiteral_escapeChar s.toList

def printElements : List (List Char) → List Char
  | [] => []
  | [text] => text
  | text :: texts => text ++ ',' :: printElements texts

theorem toList_renderElements (xs : List Value) :
    (Value.renderElements xs).toList = printElements (xs.map fun x => x.render.toList) := by
  induction xs with
  | nil => rfl
  | cons x xs ih =>
    cases xs with
    | nil => rfl
    | cons y xs =>
      rw [Value.renderElements, String.toList_append, String.toList_append, ih]
      · simp [printElements]
      · simp

def printed (p : String × Value) : Member := ⟨escapedText p.1, p.2.render.toList⟩

theorem toList_renderMembers (m : List (String × Value)) :
    (Value.renderMembers m).toList = printMembers (m.map printed) := by
  induction m with
  | nil => rfl
  | cons p m ih =>
    obtain ⟨k, x⟩ := p
    cases m with
    | nil => simp [Value.renderMembers, printMembers, printed, Member.print, toList_quote]
    | cons q m =>
      obtain ⟨l, y⟩ := q
      rw [Value.renderMembers]
      · simp only [String.toList_append, ih, toList_quote]
        simp [printMembers, printed, Member.print]
      · simp

/-- No value begins with a bracket that closes. -/
theorem parseValue_close (fuel depth : Nat) (rest : List Token) :
    parseValue number fuel depth (.mark ']' :: rest) = none := by
  cases fuel <;> simp [parseValue]

/-- The tokens of printed elements, and what the elements become. -/
theorem exists_tokens_elements {nesting : Nat} {texts : List (List Char)} {xs : List Value}
    (h : List.Forall₂ (Denotes number nesting) texts xs) (hne : texts ≠ []) :
    ∃ tokens, Lexes (printElements texts) tokens ∧
      (∀ rest back, tokens ++ rest ≠ .mark ']' :: back) ∧
      ∀ fuel depth ys rest, tokens.length < fuel → nesting < depth →
        parseElements number fuel depth ys (tokens ++ .mark ']' :: rest) =
          some (.array (ys ++ xs), rest) := by
  induction h with
  | nil => exact absurd rfl hne
  | @cons text x texts xs hx hxs ih =>
    obtain ⟨tokens, hlex, hparse⟩ := hx
    have hopen : ∀ rest back, tokens ++ rest ≠ .mark ']' :: back := by
      intro rest back heq
      have hvalue := hparse tokens.length (nesting + 1) rest le_rfl (Nat.lt_succ_self _)
      rw [heq, parseValue_close] at hvalue
      cases hvalue
    cases hxs with
    | nil =>
      refine ⟨tokens, hlex, hopen, fun fuel depth ys rest hfuel hdepth => ?_⟩
      obtain ⟨n, rfl⟩ : ∃ n, fuel = n + 1 := ⟨fuel - 1, by omega⟩
      rw [parseElements, hparse n depth (.mark ']' :: rest) (by omega) hdepth]
      rfl
    | @cons text₂ y texts xs hy hxs =>
      obtain ⟨others, hothers, -, hread⟩ := ih (List.cons_ne_nil _ _)
      refine ⟨tokens ++ .mark ',' :: others, hlex.append_mark hothers (by decide), ?_, ?_⟩
      · intro rest back
        rw [List.append_assoc]
        exact hopen _ back
      · intro fuel depth ys rest hfuel hdepth
        simp only [List.length_append, List.length_cons] at hfuel
        obtain ⟨n, rfl⟩ : ∃ n, fuel = n + 1 := ⟨fuel - 1, by omega⟩
        have hvalue := hparse n depth (.mark ',' :: (others ++ .mark ']' :: rest)) (by omega) hdepth
        rw [List.append_assoc, List.cons_append, parseElements, hvalue]
        simp only [Option.bind_some]
        rw [hread n depth _ rest (by omega) hdepth, List.append_assoc]
        rfl

/-- A printed array denotes it if its elements do. -/
theorem denotes_array {nesting : Nat} {xs : List Value}
    (h : ∀ x ∈ xs, Denotes number nesting x.render.toList x) :
    Denotes number (nesting + 1) (Value.array xs).render.toList (.array xs) := by
  have hopen : isMark '[' = true := by decide
  have hclose : isMark ']' = true := by decide
  have htext : (Value.array xs).render.toList =
      '[' :: (printElements (xs.map fun x => x.render.toList) ++ [']']) := by
    simp [Value.render, toList_renderElements]
  rw [htext]
  by_cases hne : xs = []
  · subst hne
    refine ⟨[.mark '[', .mark ']'], lexes_nil.append_mark (lexes_nil.append_mark lexes_nil hclose)
      hopen, fun fuel depth rest hfuel hdepth => ?_⟩
    simp only [List.length_cons, List.length_nil] at hfuel
    obtain ⟨n, rfl⟩ : ∃ n, fuel = n + 1 := ⟨fuel - 1, by omega⟩
    have hlt : ¬ depth ≤ 1 := by omega
    simp [parseValue, hlt]
  · have hall : List.Forall₂ (Denotes number nesting) (xs.map fun x => x.render.toList) xs := by
      rw [List.forall₂_map_left_iff, List.forall₂_same]
      exact h
    obtain ⟨tokens, hlex, hfirst, hparse⟩ := exists_tokens_elements hall (by simpa using hne)
    have hlexes := lexes_nil.append_mark (hlex.append_mark lexes_nil hclose) hopen
    refine ⟨_, hlexes, fun fuel depth rest hfuel hdepth => ?_⟩
    simp only [List.nil_append, List.length_cons, List.length_append, List.length_nil] at hfuel
    obtain ⟨n, rfl⟩ : ∃ n, fuel = n + 1 := ⟨fuel - 1, by omega⟩
    have hlt : ¬ depth ≤ 1 := by omega
    have hread := hparse n (depth - 1) [] rest (by omega) (by omega)
    rw [List.nil_append, List.cons_append, List.append_assoc, List.singleton_append, parseValue]
    · simpa only [if_neg hlt, List.nil_append] using hread
    · exact fun back heq => hfirst _ back heq

/-- A printed object denotes it if its members do. -/
theorem denotes_map {nesting : Nat} {m : Map} (hm : SortedMap.Sorted m)
    (h : ∀ p ∈ m, Denotes number nesting p.2.render.toList p.2) :
    Denotes number (nesting + 1) (Value.object m).render.toList (.object m) := by
  have htext : (Value.object m).render.toList = printObject (m.map printed) := by
    simp [Value.render, printObject, toList_renderMembers]
  rw [htext]
  by_cases hne : m = []
  · subst hne
    have hopen : isMark '\x7b' = true := by decide
    have hclose : isMark '\x7d' = true := by decide
    refine ⟨[.mark '\x7b', .mark '\x7d'], lexes_nil.append_mark
      (lexes_nil.append_mark lexes_nil hclose) hopen, fun fuel depth rest hfuel hdepth => ?_⟩
    simp only [List.length_cons, List.length_nil] at hfuel
    obtain ⟨n, rfl⟩ : ∃ n, fuel = n + 1 := ⟨fuel - 1, by omega⟩
    have hlt : ¬ depth ≤ 1 := by omega
    simp [parseValue, hlt]
  · have hall : List.Forall₂ (MemberReads number nesting) (m.map printed) m := by
      rw [List.forall₂_map_left_iff, List.forall₂_same]
      exact fun p hp => ⟨isLiteral_escapedText p.1, unescape_escapedText p.1, h p hp⟩
    have hobj := denotes_object hall (by simpa using hne)
    rwa [Value.obj, SortedMap.ofList_of_sorted hm] at hobj

/-! ## Back again -/

/-- The text of the number denotes it. -/
def rereads (number : List Char → Option Number) (n : Number) : Bool :=
  n.text.toList.all isWordChar && n.text != "" && !(["null", "true", "false"].contains n.text) &&
    number n.text.toList == some n

/-- A number that is read again denotes itself. -/
theorem denotes_number {n : Number} (h : rereads number n = true) :
    Denotes number 0 n.text.toList (.number n) := by
  simp only [rereads, Bool.and_eq_true, Bool.not_eq_true', bne_iff_ne, beq_iff_eq] at h
  obtain ⟨⟨⟨hword, hne⟩, hnames⟩, hnumber⟩ := h
  refine denotes_word number hword (by simpa using hne) ?_
  have hnot : ∀ name ∈ ["null", "true", "false"], n.text.toList ≠ name.toList := by
    intro name hname heq
    rw [String.toList_inj.mp heq] at hnames
    simp_all
  simp only [List.forall_mem_cons] at hnot
  rw [readWord, if_neg hnot.1, if_neg hnot.2.1, if_neg hnot.2.2.1, hnumber]
  rfl

mutual

/-- A value within its limit is what its text denotes. -/
theorem denotes_render : ∀ {v : Value} {nesting : Nat}, v.Within (nesting + 1) →
    v.every (rereads number) (fun _ => true) = true → Denotes number nesting v.render.toList v
  | .null, _, _, _ => (denotes_word number (by decide) (by decide) rfl).mono number (Nat.zero_le _)
  | .bool b, _, _, _ => by
    refine Denotes.mono number ?_ (Nat.zero_le _)
    cases b
    · exact denotes_word number (by decide) (by decide) rfl
    · exact denotes_word number (by decide) (by decide) rfl
  | .number _, _, _, h => (denotes_number h).mono number (Nat.zero_le _)
  | .string s, _, _, _ => by
    refine Denotes.mono number ?_ (Nat.zero_le _)
    have hliteral := denotes_literal number (isLiteral_escapedText s) (unescape_escapedText s)
    rw [String.ofList_toList, ← toList_quote] at hliteral
    exact hliteral
  | .array xs, 0, h, _ => absurd h.1 (by decide)
  | .array xs, _ + 1, h, hevery => denotes_array (denotes_elements h.2 hevery)
  | .object m, 0, h, _ => absurd h.1 (by decide)
  | .object m, _ + 1, h, hevery => denotes_map h.2.1 (denotes_members h.2.2 hevery)

theorem denotes_elements : ∀ {xs : List Value} {nesting : Nat},
    Value.WithinElements xs (nesting + 1) →
    Value.everyElement (rereads number) (fun _ => true) xs = true →
    ∀ x ∈ xs, Denotes number nesting x.render.toList x
  | [], _, _, _ => by simp
  | x :: xs, _, h, hevery => by
    rw [Value.everyElement, Bool.and_eq_true] at hevery
    rw [List.forall_mem_cons]
    exact ⟨denotes_render h.1 hevery.1, denotes_elements h.2 hevery.2⟩

theorem denotes_members : ∀ {m : List (String × Value)} {nesting : Nat},
    Value.WithinMembers m (nesting + 1) →
    Value.everyMember (rereads number) (fun _ => true) m = true →
    ∀ p ∈ m, Denotes number nesting p.2.render.toList p.2
  | [], _, _, _ => by simp
  | (k, x) :: m, _, h, hevery => by
    simp only [Value.everyMember, Bool.true_and, Bool.and_eq_true] at hevery
    rw [List.forall_mem_cons]
    exact ⟨denotes_render h.1 hevery.1, denotes_members h.2 hevery.2⟩

end

/-- A value whose numbers are read back is read back, exactly if it is one that can be read. -/
theorem readText_render_iff {v : Value} (h : v.every (rereads number) (fun _ => true) = true) :
    readText number v.render.toList = some v ↔ v.Within 128 :=
  ⟨within_of_readText, fun hv => readText_of_denotes (denotes_render hv h) (by decide)⟩

/-! ## Values that are built -/

variable (number) in
/-- A value that may stand below `depth` in one that is read back. -/
structure RoundTrips (v : Value) (depth : Nat) : Prop where
  within : v.Within depth
  numbers : v.every (rereads number) (fun _ => true) = true

namespace RoundTrips

variable {v w x : Value} {depth : Nat}

theorem readText (h : RoundTrips number v 128) : Json.readText number v.render.toList = some v :=
  (readText_render_iff h.numbers).mpr h.within

theorem null : RoundTrips number .null depth := ⟨trivial, rfl⟩

theorem string (s : String) : RoundTrips number (.string s) depth := ⟨trivial, rfl⟩

theorem bool (b : Bool) : RoundTrips number (.bool b) depth := ⟨trivial, rfl⟩

theorem mono (h : RoundTrips number v depth) {deeper : Nat} (hle : depth ≤ deeper) :
    RoundTrips number v deeper := ⟨h.within.mono hle, h.numbers⟩

theorem get? (h : RoundTrips number v (depth + 1)) {key : String} (hx : v.get? key = some x) :
    RoundTrips number x depth := by
  cases v with
  | object m =>
    have hmem := SortedMap.mem_of_get? hx
    exact ⟨(Value.within_object.mp h.within).2.2 _ hmem,
      (Value.everyMember_eq_true.mp h.numbers _ hmem).2⟩
  | null | bool | number | string | array => cases hx

theorem index (h : RoundTrips number v (depth + 1)) (key : String) :
    RoundTrips number (v.index key) depth := by
  cases hx : v.get? key with
  | none => simpa [Value.index, hx] using null
  | some x => simpa [Value.index, hx] using h.get? hx

theorem object {m : Map} (hdepth : 0 < depth) (hm : SortedMap.Sorted m)
    (h : ∀ p ∈ m, RoundTrips number p.2 depth) : RoundTrips number (.object m) (depth + 1) :=
  ⟨Value.within_object.mpr ⟨by omega, hm, fun p hp => (h p hp).within⟩,
    Value.everyMember_eq_true.mpr fun p hp => ⟨rfl, (h p hp).numbers⟩⟩

theorem obj {members : List (String × Value)} (hdepth : 0 < depth)
    (h : ∀ p ∈ members, RoundTrips number p.2 depth) :
    RoundTrips number (.obj members) (depth + 1) := by
  refine object hdepth (SortedMap.sorted_ofList members) fun p hp => h p ?_
  have hget := SortedMap.get?_of_mem (SortedMap.sorted_ofList members) hp
  rw [SortedMap.get?_ofList] at hget
  exact List.mem_reverse.mp (SortedMap.mem_of_get? hget)

theorem setIndex (hdepth : 0 < depth) (h : RoundTrips number v (depth + 1))
    (hx : RoundTrips number x depth) {key : String} (hset : v.setIndex key x = some w) :
    RoundTrips number w (depth + 1) := by
  cases v with
  | object m =>
    obtain rfl := Option.some.inj hset
    have hm := (Value.within_object.mp h.within).2
    refine object hdepth (SortedMap.sorted_insert hm.1 key x) fun p hp => ?_
    rcases SortedMap.mem_insert hp with rfl | hp
    · exact hx
    · exact ⟨hm.2 p hp, (Value.everyMember_eq_true.mp h.numbers p hp).2⟩
  | null =>
    obtain rfl := Option.some.inj hset
    exact object hdepth (List.pairwise_singleton _ _) (by simpa using hx)
  | bool | number | string | array => cases hset

end RoundTrips

end

end VibeAudit.Json

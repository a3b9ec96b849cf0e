import Mathlib.Data.List.Chain
import VibeAudit.Json.Reader

/-!
# Where the strings of a document come from

What can be said of any text that a JSON reader accepts. No word directly
follows a string literal, so text that is put between the quotes of a printed
member either stays inside them or makes the whole unreadable; and every string
that a document holds under a name is spelled by one literal of the text, behind
a literal of that name.
-/

namespace VibeAudit.Json

open Foundation

/-- Two tokens that may stand side by side, as far as this argument goes. -/
def Apart : Token → Token → Prop
  | .str _, .word _ => False
  | _, _ => True

theorem apart_mark_left (c : Char) (t : Token) : Apart (.mark c) t := by cases t <;> trivial

theorem apart_mark_right (t : Token) (c : Char) : Apart t (.mark c) := by cases t <;> trivial

theorem isChain_append_mark {a b : List Token} {c : Char} :
    (a ++ .mark c :: b).IsChain Apart ↔ a.IsChain Apart ∧ b.IsChain Apart := by
  rw [List.isChain_append, List.isChain_cons]
  constructor
  · rintro ⟨ha, ⟨-, hb⟩, -⟩
    exact ⟨ha, hb⟩
  · rintro ⟨ha, hb⟩
    refine ⟨ha, ⟨fun t _ => apart_mark_left c t, hb⟩, fun t _ u hu => ?_⟩
    obtain rfl : .mark c = u := by simpa using hu
    exact apart_mark_right t c

theorem isChain_cons_mark {b : List Token} {c : Char} (h : b.IsChain Apart) :
    (Token.mark c :: b).IsChain Apart :=
  List.isChain_cons.mpr ⟨fun t _ => apart_mark_left c t, h⟩

/-- A member of this name with this string stands among the tokens. -/
def Spells (tokens : List Token) (key s : String) : Prop :=
  ∃ front kraw raw back, tokens = front ++ .str kraw :: .mark ':' :: .str raw :: back ∧
    unescape kraw = some key.toList ∧ unescape raw = some s.toList

theorem Spells.append_left {tokens : List Token} {key s : String} (h : Spells tokens key s)
    (front : List Token) : Spells (front ++ tokens) key s := by
  obtain ⟨front', kraw, raw, back, rfl, hkey, hs⟩ := h
  exact ⟨front ++ front', kraw, raw, back, by simp, hkey, hs⟩

section

variable {number : List Char → Option Number}

/-! ## What one call does -/

/-- A value is a word, a string, an object or an array. -/
theorem parseValue_cases {fuel depth : Nat} {tokens rest : List Token} {value : Value}
    (h : parseValue number (fuel + 1) depth tokens = some (value, rest)) :
    (∃ w, tokens = .word w :: rest ∧ readWord number w = some value) ∨
    (∃ raw s, tokens = .str raw :: rest ∧ unescape raw = some s ∧
      value = .string (String.ofList s)) ∨
    (1 < depth ∧ tokens = .mark '\x7b' :: .mark '\x7d' :: rest ∧ value = .object []) ∨
    (∃ inner, 1 < depth ∧ tokens = .mark '\x7b' :: inner ∧
      parseMembers number fuel (depth - 1) [] inner = some (value, rest)) ∨
    (1 < depth ∧ tokens = .mark '[' :: .mark ']' :: rest ∧ value = .array []) ∨
    (∃ inner, 1 < depth ∧ tokens = .mark '[' :: inner ∧
      parseElements number fuel (depth - 1) [] inner = some (value, rest)) := by
  unfold parseValue at h
  split at h
  · obtain ⟨v, hv, heq⟩ := Option.map_eq_some_iff.mp h
    obtain ⟨rfl, rfl⟩ := Prod.mk.inj heq
    exact .inl ⟨_, rfl, hv⟩
  · obtain ⟨v, hv, heq⟩ := Option.map_eq_some_iff.mp h
    obtain ⟨rfl, rfl⟩ := Prod.mk.inj heq
    exact .inr (.inl ⟨_, _, rfl, hv, rfl⟩)
  · split_ifs at h with hdepth
    have hlt := Nat.lt_of_not_le hdepth
    split at h
    · obtain ⟨rfl, rfl⟩ := Prod.mk.inj (Option.some.inj h)
      exact .inr (.inr (.inl ⟨hlt, rfl, rfl⟩))
    · exact .inr (.inr (.inr (.inl ⟨_, hlt, rfl, h⟩)))
  · split_ifs at h with hdepth
    have hlt := Nat.lt_of_not_le hdepth
    split at h
    · obtain ⟨rfl, rfl⟩ := Prod.mk.inj (Option.some.inj h)
      exact .inr (.inr (.inr (.inr (.inl ⟨hlt, rfl, rfl⟩))))
    · exact .inr (.inr (.inr (.inr (.inr ⟨_, hlt, rfl, h⟩))))
  · cases h

/-- A member is followed by a comma and others, or by the end of the object. -/
theorem parseMembers_cases {fuel depth : Nat} {m : Map} {tokens rest : List Token} {value : Value}
    (h : parseMembers number (fuel + 1) depth m tokens = some (value, rest)) :
    ∃ raw key inner v behind, tokens = .str raw :: .mark ':' :: inner ∧ unescape raw = some key ∧
      parseValue number fuel depth inner = some (v, behind) ∧
      ((∃ next, behind = .mark ',' :: next ∧ parseMembers number fuel depth
          (SortedMap.insert m (String.ofList key) v) next = some (value, rest)) ∨
        behind = .mark '\x7d' :: rest ∧
          value = .object (SortedMap.insert m (String.ofList key) v)) := by
  unfold parseMembers at h
  split at h
  · obtain ⟨key, hkey, h⟩ := Option.bind_eq_some_iff.mp h
    obtain ⟨⟨v, behind⟩, hvalue, h⟩ := Option.bind_eq_some_iff.mp h
    refine ⟨_, key, _, v, behind, rfl, hkey, hvalue, ?_⟩
    simp only at h
    split at h
    · exact .inl ⟨_, rfl, h⟩
    · obtain ⟨rfl, rfl⟩ := Prod.mk.inj (Option.some.inj h)
      exact .inr ⟨rfl, rfl⟩
    · cases h
  · cases h

/-- An element is followed by a comma and others, or by the end of the array. -/
theorem parseElements_cases {fuel depth : Nat} {xs : List Value} {tokens rest : List Token}
    {value : Value} (h : parseElements number (fuel + 1) depth xs tokens = some (value, rest)) :
    ∃ v behind, parseValue number fuel depth tokens = some (v, behind) ∧
      ((∃ next, behind = .mark ',' :: next ∧
          parseElements number fuel depth (xs ++ [v]) next = some (value, rest)) ∨
        behind = .mark ']' :: rest ∧ value = .array (xs ++ [v])) := by
  rw [parseElements] at h
  obtain ⟨⟨v, behind⟩, hvalue, h⟩ := Option.bind_eq_some_iff.mp h
  refine ⟨v, behind, hvalue, ?_⟩
  simp only at h
  split at h
  · exact .inl ⟨_, rfl, h⟩
  · obtain ⟨rfl, rfl⟩ := Prod.mk.inj (Option.some.inj h)
    exact .inr ⟨rfl, rfl⟩
  · cases h

/-- A word is no string and has no members. -/
theorem readWord_scalar {w : List Char} {value : Value} (h : readWord number w = some value) :
    (∀ s, value ≠ .string s) ∧ ∀ key, value.get? key = none := by
  rw [readWord] at h
  split_ifs at h
  · obtain rfl := Option.some.inj h
    exact ⟨fun _ => nofun, fun _ => rfl⟩
  · obtain rfl := Option.some.inj h
    exact ⟨fun _ => nofun, fun _ => rfl⟩
  · obtain rfl := Option.some.inj h
    exact ⟨fun _ => nofun, fun _ => rfl⟩
  · obtain ⟨n, -, rfl⟩ := Option.map_eq_some_iff.mp h
    exact ⟨fun _ => nofun, fun _ => rfl⟩

/-! ## What a run of calls does -/

/-- What the tokens that are used say of a value. -/
structure Used (used : List Token) (value : Value) : Prop where
  chain : used.IsChain Apart
  string : ∀ s, value = .string s → ∃ raw, used = [.str raw] ∧ unescape raw = some s.toList
  spells : ∀ key s, value.get? key = some (.string s) → Spells used key s

/-- The same for members read into a map. -/
structure UsedMembers (used : List Token) (m : Map) (value : Value) : Prop where
  chain : used.IsChain Apart
  object : ∀ s, value ≠ .string s
  spells : ∀ key s, value.get? key = some (.string s) →
    SortedMap.get? m key = some (.string s) ∨ Spells used key s

/-- The same for elements. -/
structure UsedElements (used : List Token) (value : Value) : Prop where
  chain : used.IsChain Apart
  array : ∃ xs, value = .array xs

/-- What a member under a name spells, with any tokens behind its value. -/
theorem Used.member {used : List Token} {v : Value} (h : Used used v) {raw key : List Char}
    (hkey : unescape raw = some key) {m : Map} (back : List Token) {j s : String}
    (hs : SortedMap.get? (SortedMap.insert m (String.ofList key) v) j = some (.string s)) :
    SortedMap.get? m j = some (.string s) ∨
      Spells (.str raw :: .mark ':' :: (used ++ back)) j s := by
  rw [SortedMap.get?_insert] at hs
  split_ifs at hs with hj
  · subst hj
    obtain ⟨vraw, rfl, hvraw⟩ := h.string s (Option.some.inj hs)
    exact .inr ⟨[], raw, vraw, back, rfl, by rw [hkey, String.toList_ofList], hvraw⟩
  · exact .inl hs

theorem Used.isChain_member {used : List Token} {v : Value} (h : Used used v) (raw : List Char)
    (c : Char) {back : List Token} (hback : back.IsChain Apart) :
    (Token.str raw :: .mark ':' :: (used ++ .mark c :: back)).IsChain Apart := by
  have hvalue : (used ++ .mark c :: back).IsChain Apart := isChain_append_mark.mpr ⟨h.chain, hback⟩
  exact (isChain_append_mark (a := [.str raw])).mpr ⟨.singleton _, hvalue⟩

/-- What the parser uses of the tokens is a value, the members of an object or the elements of an
array, as the grammar has them. -/
theorem parse_spec (fuel : Nat) :
    (∀ depth tokens value rest, parseValue number fuel depth tokens = some (value, rest) →
      ∃ used, tokens = used ++ rest ∧ Used used value) ∧
    (∀ depth m tokens value rest, parseMembers number fuel depth m tokens = some (value, rest) →
      ∃ used, tokens = used ++ rest ∧ UsedMembers used m value) ∧
    (∀ depth xs tokens value rest, parseElements number fuel depth xs tokens = some (value, rest) →
      ∃ used, tokens = used ++ rest ∧ UsedElements used value) := by
  induction fuel with
  | zero => simp [parseValue, parseMembers, parseElements]
  | succ fuel ih =>
    obtain ⟨ihValue, ihMembers, ihElements⟩ := ih
    refine ⟨?_, ?_, ?_⟩
    · intro depth tokens value rest h
      rcases parseValue_cases h with ⟨w, rfl, hw⟩ | ⟨raw, s, rfl, hs, rfl⟩ | ⟨-, rfl, rfl⟩ |
        ⟨inner, -, rfl, hinner⟩ | ⟨-, rfl, rfl⟩ | ⟨inner, -, rfl, hinner⟩
      · obtain ⟨hstring, hget⟩ := readWord_scalar hw
        exact ⟨[.word w], rfl, .singleton _, fun s hs => absurd hs (hstring s),
          fun key s hs => by simp [hget] at hs⟩
      · refine ⟨[.str raw], rfl, .singleton _, fun t ht => ⟨raw, rfl, ?_⟩,
          by simp [Value.get?]⟩
        obtain rfl := Value.string.inj ht
        rw [hs, String.toList_ofList]
      · exact ⟨[.mark _, .mark _], rfl, isChain_cons_mark (.singleton _), by simp,
          by simp [Value.get?]⟩
      · obtain ⟨used, rfl, hused⟩ := ihMembers _ _ _ _ _ hinner
        refine ⟨.mark _ :: used, rfl, isChain_cons_mark hused.chain,
          fun s hs => absurd hs (hused.object s), fun key s hs => ?_⟩
        rcases hused.spells key s hs with hnone | hspells
        · cases hnone
        · exact hspells.append_left [.mark _]
      · exact ⟨[.mark _, .mark _], rfl, isChain_cons_mark (.singleton _), by simp,
          by simp [Value.get?]⟩
      · obtain ⟨used, rfl, hused⟩ := ihElements _ _ _ _ _ hinner
        obtain ⟨xs, rfl⟩ := hused.array
        exact ⟨.mark _ :: used, rfl, isChain_cons_mark hused.chain, by simp,
          by simp [Value.get?]⟩
    · intro depth m tokens value rest h
      obtain ⟨raw, key, inner, v, behind, rfl, hkey, hvalue, hbehind⟩ := parseMembers_cases h
      obtain ⟨used, rfl, hused⟩ := ihValue _ _ _ _ hvalue
      rcases hbehind with ⟨next, rfl, hnext⟩ | ⟨rfl, rfl⟩
      · obtain ⟨others, rfl, hothers⟩ := ihMembers _ _ _ _ _ hnext
        refine ⟨.str raw :: .mark ':' :: (used ++ .mark ',' :: others), by simp,
          hused.isChain_member raw ',' hothers.chain, hothers.object, fun j s hs => ?_⟩
        rcases hothers.spells j s hs with hold | hspells
        · exact hused.member hkey _ hold
        · have happend := hspells.append_left (.str raw :: .mark ':' :: (used ++ [.mark ',']))
          exact .inr (by simpa using happend)
      · exact ⟨.str raw :: .mark ':' :: (used ++ [.mark '\x7d']), by simp,
          hused.isChain_member raw '\x7d' .nil, by simp, fun j s hs => hused.member hkey _ hs⟩
    · intro depth xs tokens value rest h
      obtain ⟨v, behind, hvalue, hbehind⟩ := parseElements_cases h
      obtain ⟨used, rfl, hused⟩ := ihValue _ _ _ _ hvalue
      rcases hbehind with ⟨next, rfl, hnext⟩ | ⟨rfl, rfl⟩
      · obtain ⟨others, rfl, hothers⟩ := ihElements _ _ _ _ _ hnext
        exact ⟨used ++ .mark ',' :: others, by simp,
          isChain_append_mark.mpr ⟨hused.chain, hothers.chain⟩, hothers.array⟩
      · exact ⟨used ++ [.mark ']'], by simp, isChain_append_mark.mpr ⟨hused.chain, .nil⟩, _, rfl⟩

/-- The tokens of a text that is read. -/
theorem readText_spec {text : List Char} {value : Value} (h : readText number text = some value) :
    ∃ tokens, lex text = some tokens ∧ tokens.IsChain Apart ∧
      ∀ key s, value.get? key = some (.string s) → Spells tokens key s := by
  obtain ⟨tokens, hlex, h⟩ := Option.bind_eq_some_iff.mp h
  obtain ⟨⟨v, rest⟩, hparse, h⟩ := Option.bind_eq_some_iff.mp h
  simp only at h
  split_ifs at h with hrest
  obtain rfl := Option.some.inj h
  obtain rfl := List.isEmpty_iff.mp hrest
  obtain ⟨used, rfl, hused⟩ := (parse_spec _).1 _ _ _ _ hparse
  rw [List.append_nil] at hlex
  exact ⟨used, hlex, hused.chain, hused.spells⟩

end

/-! ## Text between the quotes of a member -/

def lexFrom (st : LexState) (text : List Char) : Option (List Token) :=
  (st.run text).1.finish.map ((st.run text).2 ++ ·)

theorem lexFrom_append (st : LexState) (s t : List Char) :
    lexFrom st (s ++ t) = (lexFrom (st.run s).1 t).map ((st.run s).2 ++ ·) := by
  rw [lexFrom, LexState.run_append, lexFrom, Option.map_map]
  simp only [Function.comp_def, List.append_assoc]

/-- A word that has begun is the first token. -/
theorem lexFrom_word {w cs : List Char} {tokens : List Token}
    (h : lexFrom (.word w) cs = some tokens) : ∃ z more, tokens = .word z :: more := by
  induction cs generalizing w tokens with
  | nil =>
    obtain rfl := Option.some.inj h
    exact ⟨w, [], rfl⟩
  | cons c cs ih =>
    rw [← List.singleton_append, lexFrom_append] at h
    obtain ⟨more, hmore, rfl⟩ := Option.map_eq_some_iff.mp h
    by_cases hc : isWordChar c = true
    · have hstep : (LexState.word w).run [c] = (.word (w ++ [c]), []) := by
        simp [LexState.run, LexState.step, hc]
      rw [hstep] at hmore ⊢
      exact ih hmore
    · have hstep : ∃ st others, (LexState.word w).run [c] = (st, .word w :: others) := by
        simp [LexState.run, LexState.step, hc]
      obtain ⟨st, others, hstep⟩ := hstep
      rw [hstep]
      exact ⟨w, others ++ more, rfl⟩

/-- The quote behind the text is read as a quote that opens a literal, or is escaped: then a
word follows the next literal. -/
theorem not_apart_of_not_inside {st : LexState} (hst : ∀ tail, st ≠ .inside tail) {k : Char}
    (hk : isWordChar k = true) {rest : List Char} {tokens : List Token}
    (h : lexFrom st ('"' :: ',' :: '"' :: k :: rest) = some tokens) :
    ¬ tokens.IsChain Apart := by
  obtain ⟨raw, front, hopen⟩ : ∃ raw front, st.step '"' = (.inside raw, front) := by
    cases st with
    | outside => exact ⟨[], [], rfl⟩
    | word w => exact ⟨[], [.word w], rfl⟩
    | inside tail => exact absurd rfl (hst tail)
    | escaped raw => exact ⟨raw ++ ['\\', '"'], [], rfl⟩
  have hliteral : (LexState.inside raw).run [',', '"'] = (.outside, [.str (raw ++ [','])]) := by
    simp [LexState.run, LexState.step]
  have hword : LexState.outside.step k = (.word [k], []) := by
    simp only [isWordChar, Bool.and_eq_true, Bool.not_eq_true', bne_iff_ne, ne_eq] at hk
    simp [LexState.step, lexOutside, hk]
  have hrun : st.run ['"', ',', '"', k] = (.word [k], front ++ [.str (raw ++ [','])]) := by
    have hsplit : ['"', ',', '"', k] = ['"'] ++ ([',', '"'] ++ [k]) := rfl
    have hfirst : st.run ['"'] = (.inside raw, front) := by simp [LexState.run, hopen]
    have hlast : LexState.outside.run [k] = (.word [k], []) := by simp [LexState.run, hword]
    rw [hsplit, LexState.run_append, hfirst, LexState.run_append, hliteral, hlast]
    rfl
  have hsplit : '"' :: ',' :: '"' :: k :: rest = ['"', ',', '"', k] ++ rest := rfl
  rw [hsplit, lexFrom_append, hrun] at h
  obtain ⟨behind, hbehind, rfl⟩ := Option.map_eq_some_iff.mp h
  obtain ⟨z, more, rfl⟩ := lexFrom_word hbehind
  intro hchain
  rw [List.append_assoc, List.singleton_append, List.isChain_append_cons_cons] at hchain
  exact hchain.2.1

def LexState.content : LexState → List Char
  | .inside raw => raw
  | .escaped raw => raw ++ ['\\']
  | _ => []

theorem step_content (st : LexState) (c : Char) (raw : List Char)
    (h : .str raw ∈ (st.step c).2 ∨ raw = (st.step c).1.content) :
    raw.length ≤ st.content.length + 1 ∧ ('\\' ∈ raw → '\\' ∈ st.content ++ [c]) := by
  have houtside : .str raw ∉ (lexOutside c).2 ∧ (lexOutside c).1.content = [] := by
    unfold lexOutside
    split_ifs <;> simp [LexState.content]
  cases st with
  | outside =>
    obtain rfl : raw = [] := by simpa [LexState.step, houtside] using h
    simp
  | word w =>
    by_cases hc : isWordChar c = true
    · obtain rfl : raw = [] := by simpa [LexState.step, hc, LexState.content] using h
      simp
    · obtain rfl : raw = [] := by simpa [LexState.step, hc, houtside] using h
      simp
  | inside front =>
    unfold LexState.step at h
    simp only at h
    split_ifs at h with hquote hslash
    · have hraw : raw = front ∨ raw = [] := by simpa [LexState.content] using h
      rcases hraw with rfl | rfl
      · exact ⟨Nat.le_succ _, fun hr => List.mem_append_left _ hr⟩
      · simp
    · obtain rfl : raw = front ++ ['\\'] := by simpa [LexState.content] using h
      simp [LexState.content, hslash]
    · obtain rfl : raw = front ++ [c] := by simpa [LexState.content] using h
      simp [LexState.content]
  | escaped front =>
    obtain rfl : raw = front ++ ['\\', c] := by simpa [LexState.step, LexState.content] using h
    simp [LexState.content]

/-- A literal that ends in a text, or is left open in it, is not longer than the text and what
was open before, and has a backslash only from there. -/
theorem run_content (st : LexState) (s : List Char) :
    (∀ raw, (.str raw ∈ (st.run s).2 ∨ raw = (st.run s).1.content) →
      raw.length ≤ st.content.length + s.length ∧ ('\\' ∈ raw → '\\' ∈ st.content ++ s)) := by
  induction s generalizing st with
  | nil =>
    rintro raw (h | rfl)
    · cases h
    · simp [LexState.run]
  | cons c s ih =>
    have hstep := step_content st c
    intro raw h
    rw [LexState.run] at h
    simp only [List.mem_append, or_assoc] at h
    obtain ⟨hlen, hmem⟩ := hstep _ (.inr rfl)
    rcases h with hfirst | hrest
    · obtain ⟨hle, hin⟩ := hstep raw (.inl hfirst)
      refine ⟨by simp only [List.length_cons]; omega, fun hr => ?_⟩
      have hslash := hin hr
      simp only [List.mem_append, List.mem_cons] at hslash ⊢
      tauto
    · obtain ⟨hle, hin⟩ := ih _ raw hrest
      refine ⟨by simp only [List.length_cons]; omega, fun hr => ?_⟩
      have hslash := hin hr
      simp only [List.mem_append, List.mem_cons] at hslash hmem ⊢
      tauto

/-! ## What a literal spells -/

theorem joinPairs_length {ns : List Nat} {s : List Char} (h : joinPairs ns = some s) :
    s.length ≤ ns.length := by
  fun_induction joinPairs ns generalizing s with
  | case1 => simp_all
  | case2 n hn => cases h
  | case3 n hn =>
    obtain rfl := Option.some.inj h
    simp
  | case4 n m ns hpair ih =>
    obtain ⟨t, ht, rfl⟩ := Option.map_eq_some_iff.mp h
    have := ih ht
    simp only [List.length_cons]
    omega
  | case5 n m ns hpair hn => cases h
  | case6 n m ns hpair hn ih =>
    obtain ⟨t, ht, rfl⟩ := Option.map_eq_some_iff.mp h
    have := ih ht
    simp only [List.length_cons] at this ⊢
    omega

/-- An escape is longer than what it stands for. -/
theorem units_length {raw : List Char} {ns : List Nat} (h : units raw = some ns) :
    ns.length + (if '\\' ∈ raw then 1 else 0) ≤ raw.length := by
  fun_induction units raw generalizing ns with
  | case1 => simp_all
  | case2 a b c d cs ih =>
    obtain ⟨n, -, h⟩ := Option.bind_eq_some_iff.mp h
    obtain ⟨t, ht, rfl⟩ := Option.map_eq_some_iff.mp h
    have := ih ht
    rw [if_pos List.mem_cons_self]
    simp only [List.length_cons]
    split_ifs at this <;> omega
  | case3 e cs hu ih =>
    obtain ⟨n, -, h⟩ := Option.bind_eq_some_iff.mp h
    obtain ⟨t, ht, rfl⟩ := Option.map_eq_some_iff.mp h
    have := ih ht
    rw [if_pos List.mem_cons_self]
    simp only [List.length_cons]
    split_ifs at this <;> omega
  | case4 c cs hu he hc ih =>
    obtain ⟨t, ht, rfl⟩ := Option.map_eq_some_iff.mp h
    have := ih ht
    have hne : '\\' ≠ c := by
      rintro rfl
      revert hc
      decide
    simp only [List.length_cons, List.mem_cons, hne, false_or]
    split_ifs at this ⊢ <;> omega
  | case5 => cases h

/-- A literal spells itself, or it has a backslash and is longer than what it spells. -/
theorem unescape_cases {raw s : List Char} (h : unescape raw = some s) :
    ('\\' ∉ raw ∧ raw = s ∧ s.all isPlainChar = true) ∨
      ('\\' ∈ raw ∧ s.length < raw.length) := by
  obtain ⟨ns, hunits, hjoin⟩ := Option.bind_eq_some_iff.mp h
  by_cases hslash : '\\' ∈ raw
  · have hlen := units_length hunits
    have hjoinLen := joinPairs_length hjoin
    rw [if_pos hslash] at hlen
    exact .inr ⟨hslash, by omega⟩
  · have hplain : raw.all isPlainChar = true := by
      clear h hjoin
      induction raw generalizing ns with
      | nil => rfl
      | cons c cs ih =>
        rw [List.mem_cons, not_or] at hslash
        rw [units.eq_def] at hunits
        split at hunits
        · contradiction
        · simp_all
        · simp_all
        · rename_i heq
          obtain ⟨rfl, rfl⟩ := List.cons.inj heq
          split_ifs at hunits with hc
          obtain ⟨t, ht, -⟩ := Option.map_eq_some_iff.mp hunits
          rw [List.all_cons, hc, ih t ht hslash.2]
          rfl
    rw [unescape_plain hplain] at h
    obtain rfl := Option.some.inj h
    exact .inl ⟨hslash, rfl, hplain⟩

/-! ## Printed members -/

/-- How the value of a printed member stands in the text: tokens without a backslash, a text in
quotes, or, under one name alone, a literal. -/
inductive Kind (name : List Char) (m : Member) : Prop where
  | fixed (tokens : List Token) (hlex : Lexes m.text tokens)
    (hplain : ∀ raw, .str raw ∈ tokens → '\\' ∉ raw)
  | slot (raw : List Char) (htext : m.text = '"' :: (raw ++ ['"'])) (hname : m.key ≠ name)
  | literal (raw : List Char) (htext : m.text = '"' :: (raw ++ ['"'])) (hlit : IsLiteral raw)
    (hname : m.key = name)

/-- The text in quotes that a literal with a backslash stands in. -/
def FromSlot (name : List Char) (m : Member) (raw : List Char) : Prop :=
  ∃ slot, m.text = '"' :: (slot ++ ['"']) ∧ m.key ≠ name ∧ '\\' ∈ slot ∧
    raw.length ≤ slot.length

theorem lexes_of_inside {raw tail : List Char} {tokens : List Token}
    (h : (LexState.inside []).run raw = (.inside tail, tokens)) :
    Lexes ('"' :: (raw ++ ['"'])) (tokens ++ [.str tail]) := by
  intro c rest _
  have hopen : LexState.outside.step '"' = (.inside [], []) := rfl
  have hclose : (LexState.inside tail).step '"' = (.outside, [.str tail]) := by
    simp [LexState.step]
  rw [List.cons_append, LexState.run, hopen, List.append_assoc, List.singleton_append,
    LexState.run_append, h, LexState.run, hclose]
  simp

theorem Lexes.lexFrom {s : List Char} {a : List Token} (hs : Lexes s a) {c : Char}
    (hc : isMark c = true) (t : List Char) :
    Json.lexFrom .outside (s ++ c :: t) =
      (Json.lexFrom .outside t).map (a ++ .mark c :: ·) := by
  have hmark : LexState.outside.run [c] = (.outside, [.mark c]) := by
    simp [LexState.run, step_mark hc]
  rw [Json.lexFrom, hs c t hc, ← List.singleton_append, LexState.run_append, hmark, Json.lexFrom,
    Option.map_map]
  simp [Function.comp_def]

/-- Where a literal with a backslash stands in the tokens of one value. -/
theorem exists_tokens_of_kind {name : List Char} {m : Member} (h : Kind name m)
    (hinside : ∀ raw, m.text = '"' :: (raw ++ ['"']) → m.key ≠ name →
      ∃ tail tokens, (LexState.inside []).run raw = (.inside tail, tokens)) :
    ∃ tokens, Lexes m.text tokens ∧ ∀ front raw back, tokens = front ++ .str raw :: back →
      '\\' ∈ raw → FromSlot name m raw ∨ front = [] ∧ m.key = name := by
  cases h with
  | fixed tokens hlex hplain =>
    refine ⟨tokens, hlex, fun front raw back htokens hslash => ?_⟩
    exact absurd hslash (hplain raw (by simp [htokens]))
  | slot raw htext hname =>
    obtain ⟨tail, tokens, hrun⟩ := hinside raw htext hname
    refine ⟨tokens ++ [.str tail], htext ▸ lexes_of_inside hrun, ?_⟩
    intro front r back htokens hslash
    have hcontent := run_content (.inside []) raw r
    have hmem : .str r ∈ tokens ++ [.str tail] := by simp [htokens]
    rw [hrun] at hcontent
    obtain ⟨hle, hin⟩ := hcontent (by simpa [LexState.content] using hmem)
    simp only [LexState.content, List.length_nil, Nat.zero_add, List.nil_append] at hle hin
    exact .inl ⟨raw, htext, hname, hin hslash, hle⟩
  | literal raw htext hlit hname =>
    refine ⟨[.str raw], htext ▸ lexes_literal hlit, fun front r back htokens _ => .inr ⟨?_, hname⟩⟩
    cases front with
    | nil => rfl
    | cons t front => simp at htokens

/-- A string stands before or behind a mark. -/
theorem split_at_mark {a b front back : List Token} {c : Char} {raw : List Char}
    (h : a ++ .mark c :: b = front ++ .str raw :: back) :
    (∃ back', a = front ++ .str raw :: back') ∨
      ∃ front', front = a ++ .mark c :: front' ∧ b = front' ++ .str raw :: back := by
  rcases List.append_eq_append_iff.mp h with ⟨mid, rfl, hmid⟩ | ⟨mid, rfl, hmid⟩
  · cases mid with
    | nil => cases hmid
    | cons t mid =>
      obtain ⟨rfl, hb⟩ := List.cons.inj hmid
      exact .inr ⟨mid, rfl, hb⟩
  · cases mid with
    | nil => cases hmid
    | cons t mid =>
      obtain ⟨rfl, -⟩ := List.cons.inj hmid
      exact .inl ⟨mid, rfl⟩

/-- A name that is printed as it is, and would be read as a word outside quotes. -/
structure IsName (key : List Char) : Prop where
  plain : key.all isPlainChar = true
  word : ∃ k rest, key = k :: rest ∧ isWordChar k = true

theorem not_slash_of_plain {s : List Char} (h : s.all isPlainChar = true) : '\\' ∉ s := by
  intro hmem
  have hplain := List.all_eq_true.mp h _ hmem
  revert hplain
  decide

/-- A member that the object ends with, or goes on behind: the text in its quotes is closed by
its own quote. -/
theorem inside_of_apart {m next : Member} {ms : List Member} (hm : IsName m.key)
    (hnext : IsName next.key) {rest : List Char} {tokens : List Token}
    (h : lexFrom .outside (m.print ++ ',' :: (printMembers (next :: ms) ++ rest)) = some tokens)
    (hchain : tokens.IsChain Apart) {raw : List Char} (htext : m.text = '"' :: (raw ++ ['"'])) :
    ∃ tail ts, (LexState.inside []).run raw = (.inside tail, ts) := by
  by_contra hnone
  have hst : ∀ tail, ((LexState.inside []).run raw).1 ≠ .inside tail := by
    intro tail htail
    exact hnone ⟨tail, ((LexState.inside []).run raw).2, by rw [← htail]⟩
  obtain ⟨k, key, hkey, hk⟩ := hnext.word
  obtain ⟨behind, hbehind⟩ : ∃ behind, printMembers (next :: ms) ++ rest = '"' :: k :: behind := by
    cases ms <;> simp [printMembers, Member.print, hkey]
  have hcolon : isMark ':' = true := by decide
  have hopen : LexState.outside.run ['"'] = (.inside [], []) := rfl
  have hsplit : m.print ++ ',' :: (printMembers (next :: ms) ++ rest) =
      ('"' :: (m.key ++ ['"'])) ++ ':' :: (['"'] ++ (raw ++ '"' :: ',' :: '"' :: k :: behind)) := by
    simp [Member.print, htext, hbehind]
  rw [hsplit, (lexes_literal (isLiteral_of_plain hm.plain)).lexFrom hcolon, lexFrom_append, hopen,
    lexFrom_append] at h
  obtain ⟨value, hvalue, rfl⟩ := Option.map_eq_some_iff.mp h
  obtain ⟨text, htext', rfl⟩ := Option.map_eq_some_iff.mp hvalue
  obtain ⟨last, hlast, rfl⟩ := Option.map_eq_some_iff.mp htext'
  refine not_apart_of_not_inside hst hk hlast ?_
  exact hchain.right_of_append.tail.right_of_append.right_of_append

/-- The tokens of one member, and where a literal with a backslash stands among them: in the text
of the slot, or right behind the name. -/
theorem exists_tokens_of_member {name : List Char} {m : Member} (hm : IsName m.key)
    (hkind : Kind name m)
    (hinside : ∀ raw, m.text = '"' :: (raw ++ ['"']) → m.key ≠ name →
      ∃ tail tokens, (LexState.inside []).run raw = (.inside tail, tokens))
    {raw : List Char} (hslash : '\\' ∈ raw) :
    ∃ toks, Lexes m.print (.str m.key :: .mark ':' :: toks) ∧
      ∀ front back, .str m.key :: .mark ':' :: toks = front ++ .str raw :: back →
        FromSlot name m raw ∨ front = [.str name, .mark ':'] := by
  have hcolon : isMark ':' = true := by decide
  obtain ⟨toks, hlex, hfrom⟩ := exists_tokens_of_kind hkind hinside
  have hprint : m.print = '"' :: (m.key ++ ['"']) ++ ':' :: m.text := by simp [Member.print]
  refine ⟨toks, ?_, fun front back htoks => ?_⟩
  · rw [hprint]
    exact (lexes_literal (isLiteral_of_plain hm.plain)).append_mark hlex hcolon
  · cases front with
    | nil =>
      obtain rfl : m.key = raw := by simpa using (List.cons.inj htoks).1
      exact absurd hslash (not_slash_of_plain hm.plain)
    | cons t front =>
      cases front with
      | nil => simp at htoks
      | cons u front =>
        simp only [List.cons_append, List.cons.injEq] at htoks
        obtain ⟨rfl, rfl, htoks⟩ := htoks
        rcases hfrom front raw back htoks hslash with hslot | ⟨rfl, hname⟩
        · exact .inl hslot
        · exact .inr (by rw [hname])

/-- Where a literal with a backslash stands in the tokens of printed members: in the text of a
slot, or right behind the name whose values are literals. -/
theorem origin_of_literal {name : List Char} {ms : List Member} (hne : ms ≠ [])
    (hnames : ∀ m ∈ ms, IsName m.key) (hkinds : ∀ m ∈ ms, Kind name m)
    (hlast : ∀ m, ms.getLast? = some m → ∀ raw, m.text = '"' :: (raw ++ ['"']) → m.key = name)
    {tokens : List Token} (h : lexFrom .outside (printMembers ms ++ ['\x7d']) = some tokens)
    (hchain : tokens.IsChain Apart) {front back : List Token} {raw : List Char}
    (hsplit : tokens = front ++ .str raw :: back) (hslash : '\\' ∈ raw) :
    (∃ m ∈ ms, FromSlot name m raw) ∨ ∃ front', front = front' ++ [.str name, .mark ':'] := by
  have hcomma : isMark ',' = true := by decide
  have hclose : isMark '\x7d' = true := by decide
  subst hsplit
  induction ms generalizing front with
  | nil => exact absurd rfl hne
  | cons m ms ih =>
    rw [List.forall_mem_cons] at hnames hkinds
    cases ms with
    | nil =>
      obtain ⟨toks, hlex, hfrom⟩ := exists_tokens_of_member hnames.1 hkinds.1
        (fun raw htext hkey => absurd (hlast m rfl raw htext) hkey) hslash
      rw [printMembers, hlex.lexFrom hclose] at h
      obtain ⟨behind, hbehind, h⟩ := Option.map_eq_some_iff.mp h
      obtain rfl : [] = behind := Option.some.inj hbehind
      rcases split_at_mark h with ⟨back', hback⟩ | ⟨front', -, hnil⟩
      · rcases hfrom front back' hback with hslot | rfl
        · exact .inl ⟨m, List.mem_cons_self, hslot⟩
        · exact .inr ⟨[], rfl⟩
      · simp at hnil
    | cons next ms =>
      have htext : printMembers (m :: next :: ms) ++ ['\x7d'] =
          m.print ++ ',' :: (printMembers (next :: ms) ++ ['\x7d']) := by simp [printMembers]
      rw [htext] at h
      obtain ⟨toks, hlex, hfrom⟩ := exists_tokens_of_member hnames.1 hkinds.1
        (fun raw hraw _ =>
          inside_of_apart hnames.1 (hnames.2 next List.mem_cons_self) h hchain hraw) hslash
      rw [hlex.lexFrom hcomma] at h
      obtain ⟨behind, hbehind, h⟩ := Option.map_eq_some_iff.mp h
      rcases split_at_mark h with ⟨back', hback⟩ | ⟨front', rfl, rfl⟩
      · rcases hfrom front back' hback with hslot | rfl
        · exact .inl ⟨m, List.mem_cons_self, hslot⟩
        · exact .inr ⟨[], rfl⟩
      · have hbehindChain := (isChain_append_mark.mp (h ▸ hchain)).2
        rcases ih (List.cons_ne_nil _ _) hnames.2 hkinds.2 hlast hbehind hbehindChain with
          ⟨n, hn, hslot⟩ | ⟨front, hfront⟩
        · exact .inl ⟨n, List.mem_cons_of_mem _ hn, hslot⟩
        · exact .inr ⟨.str m.key :: .mark ':' :: toks ++ .mark ',' :: front, by rw [hfront]; simp⟩

/-- A text in quotes that is not plain, under another name than the one of the literals. -/
def NotPlainSlot (name : List Char) (ms : List Member) (raw : List Char) : Prop :=
  ∃ m ∈ ms, m.text = '"' :: (raw ++ ['"']) ∧ m.key ≠ name ∧ raw.all isPlainChar ≠ true

/-- The text under a name is spelled by a longer one that is not plain either. -/
theorem exists_longer_slot {name : List Char} {ms : List Member} (hne : ms ≠ [])
    (hname : name.all isPlainChar = true) (hnames : ∀ m ∈ ms, IsName m.key)
    (hkinds : ∀ m ∈ ms, Kind name m)
    (hlast : ∀ m, ms.getLast? = some m → ∀ raw, m.text = '"' :: (raw ++ ['"']) → m.key = name)
    {tokens : List Token} (hlex : lex (printObject ms) = some tokens)
    (hchain : tokens.IsChain Apart) {key raw : List Char} (hkey : key ≠ name)
    (hraw : raw.all isPlainChar ≠ true)
    (hspells : Spells tokens (String.ofList key) (String.ofList raw)) :
    ∃ slot, NotPlainSlot name ms slot ∧ raw.length < slot.length := by
  have hopen : isMark '\x7b' = true := by decide
  have hlex' : lexFrom .outside ([] ++ '\x7b' :: (printMembers ms ++ ['\x7d'])) =
      some tokens := hlex
  rw [lexes_nil.lexFrom hopen] at hlex'
  obtain ⟨inner, hinner, rfl⟩ := Option.map_eq_some_iff.mp hlex'
  obtain ⟨front, kraw, r, back, hsplit, hkraw, hr⟩ := hspells
  rw [String.toList_ofList] at hkraw hr
  rcases unescape_cases hr with ⟨-, rfl, hplain⟩ | ⟨hslash, hlen⟩
  · exact absurd hplain hraw
  · obtain ⟨front', rfl⟩ : ∃ front', front = .mark '\x7b' :: front' := by
      cases front with
      | nil => simp at hsplit
      | cons t front => exact ⟨front, by rw [(List.cons.inj hsplit).1]⟩
    have hinnerSplit : inner = (front' ++ [.str kraw, .mark ':']) ++ .str r :: back := by
      simpa using (List.cons.inj hsplit).2
    rcases origin_of_literal hne hnames hkinds hlast hinner hchain.tail hinnerSplit hslash with
      ⟨n, hn, slot, hslot, hnkey, hslotSlash, hslotLen⟩ | ⟨front, hfront⟩
    · refine ⟨slot, ⟨n, hn, hslot, hnkey, fun hplain => ?_⟩, by omega⟩
      exact not_slash_of_plain hplain hslotSlash
    · have hkrawName : kraw = name := by
        have hpair := (List.append_inj' hfront rfl).2
        simpa using hpair
      rw [hkrawName, unescape_plain hname] at hkraw
      exact absurd (Option.some.inj hkraw).symm hkey

/-- If a text of printed members is read, and every text in quotes is what its name is read as,
then all of them are plain. The longest that is not would have to be spelled by a longer literal,
and that one can only stand in the text of another that is not. -/
theorem slots_plain {number : List Char → Option Number} {name : List Char} {ms : List Member}
    (hne : ms ≠ []) (hname : name.all isPlainChar = true) (hnames : ∀ m ∈ ms, IsName m.key)
    (hkinds : ∀ m ∈ ms, Kind name m)
    (hlast : ∀ m, ms.getLast? = some m → ∀ raw, m.text = '"' :: (raw ++ ['"']) → m.key = name)
    {value : Value} (h : readText number (printObject ms) = some value)
    (hvalue : ∀ m ∈ ms, ∀ raw, m.text = '"' :: (raw ++ ['"']) → m.key ≠ name →
      raw.all isPlainChar ≠ true →
        value.get? (String.ofList m.key) = some (.string (String.ofList raw))) :
    ∀ m ∈ ms, ∀ raw, m.text = '"' :: (raw ++ ['"']) → m.key ≠ name →
      raw.all isPlainChar = true := by
  obtain ⟨tokens, hlex, hchain, hspells⟩ := readText_spec h
  intro m hm raw htext hkey
  by_contra hraw
  -- there would be texts of every length
  have hall : ∀ k, ∃ slot, NotPlainSlot name ms slot ∧ k ≤ slot.length := by
    intro k
    induction k with
    | zero => exact ⟨raw, ⟨m, hm, htext, hkey, hraw⟩, Nat.zero_le _⟩
    | succ k ih =>
      obtain ⟨slot, ⟨n, hn, hslot, hnkey, hnplain⟩, hle⟩ := ih
      obtain ⟨longer, hlonger, hlt⟩ := exists_longer_slot hne hname hnames hkinds hlast hlex hchain
        hnkey hnplain (hspells _ _ (hvalue n hn slot hslot hnkey hnplain))
      exact ⟨longer, hlonger, by omega⟩
  obtain ⟨slot, ⟨n, hn, hslot, -⟩, hle⟩ := hall (ms.map Member.text).flatten.length
  have hmem : n.text ∈ ms.map Member.text := List.mem_map_of_mem hn
  have hbound := (List.sublist_flatten_of_mem hmem).length_le
  rw [hslot, List.length_cons, List.length_append] at hbound
  omega

end VibeAudit.Json

import Mathlib.Data.List.Basic

/-!
# Texts and their bytes

UTF-8 as lists: a text is encoded character by character, and bytes are decoded
if they are the encoding of a text. A text cut inside a character does not
decode, whatever text follows the cut.
-/

namespace VibeAudit.Foundation.Utf8

def encode (text : List Char) : List UInt8 := text.flatMap String.utf8EncodeChar

def decode (bytes : List UInt8) : Option (List Char) :=
  bytes.toByteArray.utf8Decode?.map Array.toList

@[simp] theorem encode_nil : encode [] = [] := rfl

@[simp] theorem encode_append (s t : List Char) : encode (s ++ t) = encode s ++ encode t :=
  List.flatMap_append

theorem encode_cons (c : Char) (s : List Char) :
    encode (c :: s) = String.utf8EncodeChar c ++ encode s := rfl

theorem utf8Encode_eq (text : List Char) : text.utf8Encode = (encode text).toByteArray := rfl

@[simp] theorem decode_encode (text : List Char) : decode (encode text) = some text := by
  rw [decode, ← utf8Encode_eq, List.utf8Decode?_utf8Encode]
  rfl

theorem toByteArray_injective {a b : List UInt8} (h : a.toByteArray = b.toByteArray) : a = b := by
  have hdata := congrArg (fun bytes => bytes.data.toList) h
  simpa using hdata

theorem decode_eq_some_iff {bytes : List UInt8} {text : List Char} :
    decode bytes = some text ↔ encode text = bytes := by
  constructor
  · intro h
    obtain ⟨chars, hchars, rfl⟩ := Option.map_eq_some_iff.mp h
    have hsome : bytes.toByteArray.utf8Decode?.isSome = true := by simp [hchars]
    have hget := ByteArray.utf8Encode_get_utf8Decode? (b := bytes.toByteArray) (h := hsome)
    rw [Option.get_of_eq_some hsome hchars, utf8Encode_eq] at hget
    exact toByteArray_injective hget
  · rintro rfl
    exact decode_encode text

/-- The encoding of one character is no beginning of that of another. -/
theorem eq_of_begins {c d : Char} (h : String.utf8EncodeChar c <+: String.utf8EncodeChar d) :
    c = d := by
  obtain ⟨rest, hrest⟩ := h
  have hbytes : [c].utf8Encode ++ rest.toByteArray = [d].utf8Encode := by
    rw [List.utf8Encode_singleton, List.utf8Encode_singleton, ← hrest, List.toByteArray_append]
  have hbegins := List.isPrefix_of_utf8Encode_append_eq_utf8Encode _ hbytes
  simpa using hbegins

theorem utf8EncodeChar_append_inj {c d : Char} {a b : List UInt8}
    (h : String.utf8EncodeChar c ++ a = String.utf8EncodeChar d ++ b) : c = d ∧ a = b := by
  have hcd : c = d := by
    rcases List.append_eq_append_iff.mp h with ⟨mid, hmid, -⟩ | ⟨mid, hmid, -⟩
    · exact eq_of_begins ⟨mid, hmid.symm⟩
    · exact (eq_of_begins ⟨mid, hmid.symm⟩).symm
  subst hcd
  exact ⟨rfl, List.append_cancel_left h⟩

/-- Bytes at the front of a text: they end behind a character or inside one. -/
theorem exists_of_encode_eq_append {s : List Char} {front back : List UInt8}
    (h : encode s = front ++ back) :
    (∃ a b, s = a ++ b ∧ front = encode a) ∨
      ∃ a c b k, s = a ++ c :: b ∧ 0 < k ∧ k < c.utf8Size ∧
        front = encode a ++ (String.utf8EncodeChar c).take k ∧
        back = (String.utf8EncodeChar c).drop k ++ encode b := by
  induction s generalizing front with
  | nil =>
    obtain ⟨rfl, -⟩ := List.append_eq_nil_iff.mp h.symm
    exact .inl ⟨[], [], rfl, rfl⟩
  | cons c s ih =>
    rw [encode_cons] at h
    rcases List.append_eq_append_iff.mp h with ⟨mid, rfl, hmid⟩ | ⟨mid, hmid, rfl⟩
    · rcases ih hmid with ⟨a, b, rfl, rfl⟩ | ⟨a, d, b, k, rfl, hk, hlt, rfl, hback⟩
      · exact .inl ⟨c :: a, b, rfl, rfl⟩
      · refine .inr ⟨c :: a, d, b, k, rfl, hk, hlt, ?_, hback⟩
        rw [encode_cons, List.append_assoc]
    · have hsize := congrArg List.length hmid
      rw [String.length_utf8EncodeChar, List.length_append] at hsize
      rcases Nat.eq_zero_or_pos front.length with hzero | hpos
      · exact .inl ⟨[], c :: s, rfl, List.eq_nil_of_length_eq_zero hzero⟩
      · cases mid with
        | nil => exact .inl ⟨[c], s, rfl, by simpa [encode] using hmid.symm⟩
        | cons b mid =>
          rw [List.length_cons] at hsize
          exact .inr ⟨[], c, s, front.length, rfl, hpos, by omega, by simp [hmid], by simp [hmid]⟩

/-- Only the first byte of a character may begin one. -/
theorem take_append_ne (c d : Char) {k : Nat} (hk : 0 < k) (hcut : k < c.utf8Size) {b : UInt8}
    (hb : b.IsUTF8FirstByte) (rest : List UInt8) (t : List Char) :
    String.utf8EncodeChar d ++ encode t ≠ (String.utf8EncodeChar c).take k ++ b :: rest := by
  have hlen : ((String.utf8EncodeChar c).take k).length = k := by
    rw [List.length_take, String.length_utf8EncodeChar]
    omega
  have hne : ∀ mid, (String.utf8EncodeChar c).take k ≠ String.utf8EncodeChar d ++ mid := by
    intro mid hmid
    have hbegins : String.utf8EncodeChar d <+: String.utf8EncodeChar c :=
      List.IsPrefix.trans ⟨mid, hmid.symm⟩ (List.take_prefix k _)
    have hsize := congrArg List.length hmid
    rw [eq_of_begins hbegins, hlen, List.length_append, String.length_utf8EncodeChar] at hsize
    omega
  intro h
  rcases List.append_eq_append_iff.mp h with ⟨mid, hmid, -⟩ | ⟨mid, hmid, hrest⟩
  · exact hne mid hmid
  · cases mid with
    | nil => exact hne [] (by rw [hmid, List.append_nil, List.append_nil])
    | cons x mid =>
      obtain ⟨rfl, -⟩ := List.cons.inj hrest
      have hget : (String.utf8EncodeChar d)[k]? = some b := by
        rw [hmid, List.getElem?_append_right (Nat.le_of_eq hlen), hlen, Nat.sub_self]
        rfl
      obtain ⟨hlt, hgetElem⟩ := List.getElem?_eq_some_iff.mp hget
      rw [← hgetElem, UInt8.isUTF8FirstByte_getElem_utf8EncodeChar] at hb
      omega

/-- A character cut short by a byte that may begin a character does not decode. -/
theorem decode_cut_eq_none (s : List Char) (c : Char) {k : Nat} (hk : 0 < k) (hcut : k < c.utf8Size)
    {b : UInt8} (hb : b.IsUTF8FirstByte) (rest : List UInt8) :
    decode (encode s ++ ((String.utf8EncodeChar c).take k ++ b :: rest)) = none := by
  rw [Option.eq_none_iff_forall_ne_some]
  intro text htext
  rw [decode_eq_some_iff] at htext
  induction s generalizing text with
  | nil =>
    cases text with
    | nil => simp at htext
    | cons d t => exact take_append_ne c d hk hcut hb rest t htext
  | cons d s ih =>
    rw [encode_cons, List.append_assoc] at htext
    cases text with
    | nil => exact String.utf8EncodeChar_ne_nil (List.append_eq_nil_iff.mp htext.symm).1
    | cons e t => exact ih t (utf8EncodeChar_append_inj htext).2

/-! ## ASCII -/

theorem encode_ascii {c : Char} (h : c.toNat < 128) : String.utf8EncodeChar c = [c.val.toUInt8] :=
  String.utf8EncodeChar_eq_singleton (Char.utf8Size_eq_one_iff.mpr (by
    rw [UInt32.le_iff_toNat_le]
    exact Nat.le_of_lt_succ h))

theorem length_encode_ascii {s : List Char} (h : ∀ c ∈ s, c.toNat < 128) :
    (encode s).length = s.length := by
  induction s with
  | nil => rfl
  | cons c s ih =>
    rw [List.forall_mem_cons] at h
    rw [encode_cons, encode_ascii h.1, List.singleton_append, List.length_cons, ih h.2,
      List.length_cons]

theorem encode_take_ascii {s : List Char} (h : ∀ c ∈ s, c.toNat < 128) (n : Nat) :
    (encode s).take n = encode (s.take n) := by
  induction s generalizing n with
  | nil => simp
  | cons c s ih =>
    rw [List.forall_mem_cons] at h
    rw [encode_cons, encode_ascii h.1, List.singleton_append]
    cases n with
    | zero => rfl
    | succ n =>
      rw [List.take_succ_cons, List.take_succ_cons, encode_cons, encode_ascii h.1,
        List.singleton_append, ih h.2]

/-- The bytes of all other characters are no ASCII bytes. -/
theorem le_of_mem_utf8EncodeChar {c : Char} (h : 128 ≤ c.toNat) {b : UInt8}
    (hb : b ∈ String.utf8EncodeChar c) : 128 ≤ b.toNat := by
  have hval : 128 ≤ c.val.toNat := h
  have hbyte : ∀ n base : Nat, n + base < 256 → 128 ≤ base →
      128 ≤ (UInt8.ofNat (n + base)).toNat := by
    intro n base hlt hbase
    rw [UInt8.toNat_ofNat']
    omega
  unfold String.utf8EncodeChar at hb
  simp only at hb
  split_ifs at hb with h1 h2 h3 <;>
    simp only [List.mem_cons, List.not_mem_nil, or_false] at hb
  · omega
  · rcases hb with rfl | rfl <;> exact hbyte _ _ (by omega) (by omega)
  · rcases hb with rfl | rfl | rfl <;> exact hbyte _ _ (by omega) (by omega)
  · rcases hb with rfl | rfl | rfl | rfl <;> exact hbyte _ _ (by omega) (by omega)

end VibeAudit.Foundation.Utf8

import Mathlib.Data.Bool.AllAny
import VibeAudit.Extension.Hooks
import VibeAudit.Json.Reader

/-!
# The escaped text of a query

`vibe_json_escape` writes the escapes of the longest beginning of its source that
fits the buffer. The bytes of a UTF-8 text are escaped as its characters are,
so the output is the escape of a beginning of the text, except where the end of
the buffer falls inside a character of several bytes: then it is cut short.
-/

namespace VibeAudit.Hooks

open Foundation Extension

/-! ## Bytes -/

/-- What the loop writes for one byte. -/
def escapeByte (c : UInt8) : CString :=
  match escapeLetter c with
  | some letter => [0x5C, letter]
  | none => if c < 0x20 then unicodeEscape c else [c]

theorem escapeByte_of_letter {c letter : UInt8} (h : escapeLetter c = some letter) :
    escapeByte c = [0x5C, letter] := by
  rw [escapeByte, h]

theorem escapeByte_of_control {c : UInt8} (h : escapeLetter c = none) (hc : c < 0x20) :
    escapeByte c = unicodeEscape c := by
  rw [escapeByte, h]
  exact if_pos hc

theorem escapeByte_of_plain {c : UInt8} (h : escapeLetter c = none) (hc : ¬ c < 0x20) :
    escapeByte c = [c] := by
  rw [escapeByte, h]
  exact if_neg hc

theorem escapeByte_ne_nil (c : UInt8) : escapeByte c ≠ [] := by
  unfold escapeByte unicodeEscape
  split
  · exact List.cons_ne_nil _ _
  · split_ifs <;> exact List.cons_ne_nil _ _

/-- One pass of the loop: a byte is written whole or the loop ends. -/
theorem escapeLoop_cons (dstSize : Nat) (dst : CString) (c : UInt8) (src : CString) :
    escapeLoop dstSize dst (c :: src) =
      if dst.length + (escapeByte c).length < dstSize then
        escapeLoop dstSize (dst ++ escapeByte c) src
      else dst := by
  rw [escapeLoop]
  cases hletter : escapeLetter c with
  | some letter =>
    rw [escapeByte_of_letter hletter]
    simp only [List.length_cons, List.length_nil]
    split_ifs <;> first | rfl | omega
  | none =>
    by_cases hcontrol : c < 0x20
    · have hlen : (unicodeEscape c).length = 6 := rfl
      rw [escapeByte_of_control hletter hcontrol, hlen]
      simp only [if_pos hcontrol]
      split_ifs <;> first | rfl | omega
    · rw [escapeByte_of_plain hletter hcontrol]
      simp only [if_neg hcontrol, List.length_singleton]

/-- What fits is written. -/
theorem escapeLoop_append {dstSize : Nat} {dst : CString} {front : CString}
    (h : dst.length + (front.flatMap escapeByte).length < dstSize) (src : CString) :
    escapeLoop dstSize dst (front ++ src) =
      escapeLoop dstSize (dst ++ front.flatMap escapeByte) src := by
  induction front generalizing dst with
  | nil => simp
  | cons c front ih =>
    rw [List.flatMap_cons, List.length_append] at h
    have hc : dst.length + (escapeByte c).length < dstSize := by omega
    rw [List.cons_append, escapeLoop_cons, if_pos hc, ih (by rw [List.length_append]; omega),
      List.flatMap_cons, List.append_assoc]

/-- The output is the escape of the longest beginning of the source that fits. -/
structure Escaped (dstSize : Nat) (src out : CString) : Prop where
  fits : out.length < dstSize
  longest : ∃ front back, src = front ++ back ∧ out = front.flatMap escapeByte ∧
    ∀ c rest, back = c :: rest → dstSize ≤ out.length + (escapeByte c).length

/-- The loop stays within the buffer, writes whole escapes, and stops where the next one does not
fit. -/
theorem exists_escapeLoop {dstSize : Nat} {dst : CString} (hdst : dst.length < dstSize)
    (src : CString) :
    (escapeLoop dstSize dst src).length < dstSize ∧ ∃ front back, src = front ++ back ∧
      escapeLoop dstSize dst src = dst ++ front.flatMap escapeByte ∧
      ∀ c rest, back = c :: rest →
        dstSize ≤ (escapeLoop dstSize dst src).length + (escapeByte c).length := by
  induction src generalizing dst with
  | nil => exact ⟨hdst, [], [], rfl, by simp [escapeLoop], nofun⟩
  | cons c src ih =>
    rw [escapeLoop_cons]
    by_cases hc : dst.length + (escapeByte c).length < dstSize
    · rw [if_pos hc]
      have hfits : (dst ++ escapeByte c).length < dstSize := by
        rw [List.length_append]
        exact hc
      obtain ⟨hlen, front, back, rfl, hout, hlongest⟩ := ih hfits
      refine ⟨hlen, c :: front, back, rfl, ?_, hlongest⟩
      rw [hout, List.flatMap_cons, List.append_assoc]
    · rw [if_neg hc]
      refine ⟨hdst, [], c :: src, rfl, by simp, ?_⟩
      intro d rest h
      obtain ⟨rfl, -⟩ := List.cons.inj h
      omega

theorem escaped_vibeJsonEscape {dstSize : Nat} (h : 0 < dstSize) (src : CString) :
    Escaped dstSize src (vibeJsonEscape dstSize (some src)) := by
  obtain ⟨hlen, front, back, hsrc, hout, hlongest⟩ := exists_escapeLoop
    (show ([] : CString).length < dstSize from h) src
  exact ⟨hlen, front, back, hsrc, hout, hlongest⟩

/-! ## Characters -/

def escapeChar (c : Char) : List Char :=
  if c = '"' ∨ c = '\\' then ['\\', c]
  else if c = '\n' then ['\\', 'n']
  else if c = '\r' then ['\\', 'r']
  else if c = '\t' then ['\\', 't']
  else if c.toNat < 0x20 then
    ['\\', 'u', '0', '0', Nat.digitChar (c.toNat / 16), Nat.digitChar (c.toNat % 16)]
  else [c]

theorem escapeByte_of_le {b : UInt8} (h : 128 ≤ b.toNat) : escapeByte b = [b] := by
  have hne : ∀ a : UInt8, a.toNat < 128 → b ≠ a := by
    rintro a ha rfl
    omega
  have hcontrol : ¬ b < 0x20 := by
    rw [UInt8.lt_iff_toNat_lt]
    have : (0x20 : UInt8).toNat = 32 := rfl
    omega
  simp [escapeByte, escapeLetter, hcontrol, hne 0x22 (by decide), hne 0x5C (by decide),
    hne 0x0A (by decide), hne 0x0D (by decide), hne 0x09 (by decide)]

theorem escapeChar_of_le {c : Char} (h : 128 ≤ c.toNat) : escapeChar c = [c] := by
  have hne : ∀ d : Char, d.toNat < 128 → c ≠ d := by
    rintro d hd rfl
    omega
  have hcontrol : ¬ c.toNat < 0x20 := by omega
  simp [escapeChar, hcontrol, hne '"' (by decide), hne '\\' (by decide),
    hne '\n' (by decide), hne '\r' (by decide), hne '\t' (by decide)]

/-- The escapes of the ASCII characters, one by one. -/
theorem encode_escapeChar_ascii : ∀ n : Fin 128,
    Utf8.encode (escapeChar (Char.ofNat n)) = escapeByte (UInt8.ofNat n) := by
  decide +kernel

/-- Escaping the bytes of a character is escaping the character. -/
theorem encode_escapeChar (c : Char) :
    Utf8.encode (escapeChar c) = (String.utf8EncodeChar c).flatMap escapeByte := by
  by_cases hc : c.toNat < 128
  · have hascii := encode_escapeChar_ascii ⟨c.toNat, hc⟩
    simp only [Char.ofNat_toNat] at hascii
    have hbyte : UInt8.ofNat c.toNat = c.val.toUInt8 := rfl
    rw [hascii, Utf8.encode_ascii hc, hbyte]
    simp
  · have hbytes : ∀ b ∈ String.utf8EncodeChar c, escapeByte b = [b] := fun b hb =>
      escapeByte_of_le (Utf8.le_of_mem_utf8EncodeChar (by omega) hb)
    rw [escapeChar_of_le (by omega), List.flatMap_congr hbytes]
    simp [Utf8.encode]

theorem encode_flatMap_escapeChar (s : List Char) :
    Utf8.encode (s.flatMap escapeChar) = (Utf8.encode s).flatMap escapeByte := by
  induction s with
  | nil => rfl
  | cons c s ih =>
    rw [List.flatMap_cons, Utf8.encode_append, encode_escapeChar, ih, Utf8.encode_cons,
      List.flatMap_append]

/-- An escape spells its character. -/
theorem units_escapeChar (c : Char) (s : List Char) :
    Json.units (escapeChar c ++ s) = (Json.units s).map (c.toNat :: ·) := by
  unfold escapeChar
  split_ifs with hself hn hr ht hcontrol
  · rcases hself with rfl | rfl <;> simp [Json.units, Json.shortEscape]
  · subst hn
    simp [Json.units, Json.shortEscape]
  · subst hr
    simp [Json.units, Json.shortEscape]
  · subst ht
    simp [Json.units, Json.shortEscape]
  · exact Json.units_escapeControl hcontrol s
  · have hplain : Json.isPlainChar c = true := by
      simp only [not_or] at hself
      simp [Json.isPlainChar, hself, Nat.le_of_not_lt hcontrol]
    exact Json.units_cons_plain hplain s

theorem unescape_flatMap_escapeChar (s : List Char) :
    Json.unescape (s.flatMap escapeChar) = some s :=
  Json.unescape_flatMap units_escapeChar s

/-- An escape does not close the literal it stands in. -/
theorem isLiteral_escapeChar (c : Char) : Json.IsLiteral (escapeChar c) := by
  unfold escapeChar
  split_ifs with hself hn hr ht hcontrol
  · exact Json.isLiteral_escape c
  · exact Json.isLiteral_escape 'n'
  · exact Json.isLiteral_escape 'r'
  · exact Json.isLiteral_escape 't'
  · exact Json.isLiteral_escapeControl hcontrol
  · simp only [not_or] at hself
    exact Json.isLiteral_singleton hself.1 hself.2

theorem isLiteral_flatMap_escapeChar (s : List Char) : Json.IsLiteral (s.flatMap escapeChar) :=
  Json.isLiteral_flatMap isLiteral_escapeChar s

/-! ## The end of the buffer -/

def escapedSize (c : Char) : Nat :=
  if c = '"' ∨ c = '\\' ∨ c = '\n' ∨ c = '\r' ∨ c = '\t' then 2
  else if c.toNat < 0x20 then 6
  else c.utf8Size

def escapedLength (s : List Char) : Nat := (s.map escapedSize).sum

theorem length_encode_escapeChar (c : Char) :
    (Utf8.encode (escapeChar c)).length = escapedSize c := by
  by_cases hc : c.toNat < 128
  · have hascii : ∀ n : Fin 128, (Utf8.encode (escapeChar (Char.ofNat n))).length =
        escapedSize (Char.ofNat n) := by decide +kernel
    have hlength := hascii ⟨c.toNat, hc⟩
    simp only [Char.ofNat_toNat] at hlength
    exact hlength
  · have hne : ∀ d : Char, d.toNat < 128 → c ≠ d := by
      rintro d hd rfl
      exact hc hd
    have hcontrol : ¬ c.toNat < 0x20 := by omega
    rw [escapeChar_of_le (by omega), Utf8.encode_cons, Utf8.encode_nil, List.append_nil,
      String.length_utf8EncodeChar]
    simp [escapedSize, hcontrol, hne '"' (by decide), hne '\\' (by decide),
      hne '\n' (by decide), hne '\r' (by decide), hne '\t' (by decide)]

theorem length_encode_flatMap_escapeChar (s : List Char) :
    (Utf8.encode (s.flatMap escapeChar)).length = escapedLength s := by
  induction s with
  | nil => rfl
  | cons c s ih =>
    rw [List.flatMap_cons, Utf8.encode_append, List.length_append, length_encode_escapeChar, ih]
    simp [escapedLength]

/-- A character begins within the buffer and does not end there. -/
def CutShort (dstSize : Nat) (text : List Char) : Prop :=
  ∃ a c b, text = a ++ c :: b ∧ escapedLength a + 1 < dstSize ∧
    dstSize ≤ escapedLength a + c.utf8Size

theorem not_cutShort_ascii {dstSize : Nat} {text : List Char}
    (h : (text.all fun c => c.toNat < 128) = true) :
    ¬ CutShort dstSize text := by
  rintro ⟨a, c, b, rfl, hbegin, hend⟩
  have hascii : c.toNat < 128 := List.all_iff_forall_prop.mp h c (by simp)
  have hone : c.utf8Size = 1 := by
    rw [← String.length_utf8EncodeChar, Utf8.encode_ascii hascii, List.length_singleton]
  omega

theorem escapedLength_replicate (n : Nat) (c : Char) :
    escapedLength (List.replicate n c) = n * escapedSize c := by
  simp [escapedLength]

/-- The bytes of a character of more than one are copied. -/
theorem escapeByte_of_mem {c : Char} (hc : 1 < c.utf8Size) {b : UInt8}
    (hb : b ∈ String.utf8EncodeChar c) : escapeByte b = [b] := by
  refine escapeByte_of_le (Utf8.le_of_mem_utf8EncodeChar ?_ hb)
  by_contra hlt
  have hone : c.utf8Size = 1 := by
    rw [← String.length_utf8EncodeChar, Utf8.encode_ascii (by omega), List.length_singleton]
  omega

theorem flatMap_escapeByte_cut (a : List Char) {c : Char} {k : Nat} (hc : 1 < c.utf8Size) :
    (Utf8.encode a ++ (String.utf8EncodeChar c).take k).flatMap escapeByte =
      Utf8.encode (a.flatMap escapeChar) ++ (String.utf8EncodeChar c).take k := by
  have hcopied : ∀ b ∈ (String.utf8EncodeChar c).take k, escapeByte b = [b] := fun b hb =>
    escapeByte_of_mem hc (List.mem_of_mem_take hb)
  rw [List.flatMap_append, ← encode_flatMap_escapeChar, List.flatMap_congr hcopied]
  simp

/-- Where no character is cut short, the output is the escape of a beginning of the text. -/
theorem vibeJsonEscape_of_not_cutShort {dstSize : Nat} {text : List Char} (hpos : 0 < dstSize)
    (h : ¬ CutShort dstSize text) :
    ∃ a b, text = a ++ b ∧
      vibeJsonEscape dstSize (some (Utf8.encode text)) = Utf8.encode (a.flatMap escapeChar) := by
  obtain ⟨hfits, front, back, hsrc, hout, hlongest⟩ :=
    escaped_vibeJsonEscape hpos (Utf8.encode text)
  rcases Utf8.exists_of_encode_eq_append hsrc with
    ⟨a, b, rfl, rfl⟩ | ⟨a, c, b, k, rfl, hk, hlt, rfl, rfl⟩
  · exact ⟨a, b, rfl, by rw [hout, encode_flatMap_escapeChar]⟩
  · have hc : 1 < c.utf8Size := by omega
    rw [flatMap_escapeByte_cut a hc] at hout
    have hlen : (vibeJsonEscape dstSize (some (Utf8.encode (a ++ c :: b)))).length =
        escapedLength a + k := by
      rw [hout, List.length_append, length_encode_flatMap_escapeChar, List.length_take,
        String.length_utf8EncodeChar, Nat.min_eq_left (Nat.le_of_lt hlt)]
    obtain ⟨d, rest, hdrop⟩ : ∃ d rest, (String.utf8EncodeChar c).drop k = d :: rest := by
      refine List.exists_cons_of_ne_nil ?_
      rw [ne_eq, List.drop_eq_nil_iff, String.length_utf8EncodeChar]
      omega
    have hd : escapeByte d = [d] :=
      escapeByte_of_mem hc (List.mem_of_mem_drop (i := k) (by rw [hdrop]; exact List.mem_cons_self))
    have hend := hlongest d (rest ++ Utf8.encode b) (by rw [hdrop]; rfl)
    rw [hd, List.length_singleton] at hend
    exact absurd ⟨a, c, b, rfl, by omega, by omega⟩ h

/-- A character that the end of the buffer falls in is cut short. -/
theorem vibeJsonEscape_of_cutShort {dstSize : Nat} {text : List Char} (h : CutShort dstSize text) :
    ∃ a c b k, text = a ++ c :: b ∧ 0 < k ∧ k < c.utf8Size ∧
      vibeJsonEscape dstSize (some (Utf8.encode text)) =
        Utf8.encode (a.flatMap escapeChar) ++ (String.utf8EncodeChar c).take k := by
  obtain ⟨a, c, b, rfl, hbegin, hend⟩ := h
  obtain ⟨k, hk⟩ : ∃ k, dstSize = escapedLength a + k + 1 :=
    ⟨dstSize - 1 - escapedLength a, by omega⟩
  have hc : 1 < c.utf8Size := by omega
  refine ⟨a, c, b, k, rfl, by omega, by omega, ?_⟩
  have hsrc : Utf8.encode (a ++ c :: b) = (Utf8.encode a ++ (String.utf8EncodeChar c).take k) ++
      ((String.utf8EncodeChar c).drop k ++ Utf8.encode b) := by
    rw [Utf8.encode_append, Utf8.encode_cons, List.append_assoc,
      ← List.append_assoc (List.take _ _), List.take_append_drop]
  have hlen : (Utf8.encode (a.flatMap escapeChar) ++ (String.utf8EncodeChar c).take k).length =
      escapedLength a + k := by
    rw [List.length_append, length_encode_flatMap_escapeChar, List.length_take,
      String.length_utf8EncodeChar, Nat.min_eq_left (by omega)]
  obtain ⟨d, rest, hdrop⟩ : ∃ d rest, (String.utf8EncodeChar c).drop k = d :: rest := by
    refine List.exists_cons_of_ne_nil ?_
    rw [ne_eq, List.drop_eq_nil_iff, String.length_utf8EncodeChar]
    omega
  have hfront := flatMap_escapeByte_cut a (k := k) hc
  rw [vibeJsonEscape, Option.getD_some, hsrc, escapeLoop_append (by
    rw [hfront, hlen, List.length_nil]; omega), hfront, List.nil_append, hdrop, List.cons_append,
    escapeLoop_cons, if_neg]
  have hone : 0 < (escapeByte d).length := List.length_pos_iff.mpr (escapeByte_ne_nil d)
  omega

end VibeAudit.Hooks

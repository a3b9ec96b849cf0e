import VibeAudit.Extension.EscapeBuffer
import VibeAudit.Hooks.Escape

/-!
# The escape in its buffer

The function that writes to the buffer refines the one on lists: the bytes in
front of the terminator are those `vibeJsonEscape` computes, no write leaves the
buffer, and read back byte by byte they spell the longest beginning of the
source whose escape fits.
-/

namespace VibeAudit.Hooks

open Foundation Extension

/-! ## Reading an escaped text byte by byte -/

def hexValue (b : UInt8) : Option Nat :=
  if 0x30 ≤ b ∧ b ≤ 0x39 then some (b.toNat - 0x30)
  else if 0x61 ≤ b ∧ b ≤ 0x66 then some (b.toNat - 0x57)
  else if 0x41 ≤ b ∧ b ≤ 0x46 then some (b.toNat - 0x37)
  else none

/-- The byte that four hexadecimal digits spell. -/
def hexByte (a b c d : UInt8) : Option UInt8 := do
  let n := (((← hexValue a) * 16 + (← hexValue b)) * 16 + (← hexValue c)) * 16 + (← hexValue d)
  if n < 256 then some (UInt8.ofNat n) else none

/-- The byte that a letter behind a backslash stands for. -/
def letterByte (letter : UInt8) : Option UInt8 :=
  if letter = 0x22 ∨ letter = 0x5C ∨ letter = 0x2F then some letter
  else if letter = 0x62 then some 0x08
  else if letter = 0x66 then some 0x0C
  else if letter = 0x6E then some 0x0A
  else if letter = 0x72 then some 0x0D
  else if letter = 0x74 then some 0x09
  else none

/-- The bytes that the inside of a JSON string spells. A quote, a backslash or a control byte that
is not part of a complete escape is an error. -/
def unescapeBytes : CString → Option CString
  | [] => some []
  | c :: s =>
    if c = 0x5C then
      match s with
      | [] => none
      | letter :: s =>
        if letter = 0x75 then
          match s with
          | x :: y :: z :: w :: s => (hexByte x y z w).bind fun b => (unescapeBytes s).map (b :: ·)
          | _ => none
        else (letterByte letter).bind fun b => (unescapeBytes s).map (b :: ·)
    else if c = 0x22 ∨ c < 0x20 then none
    else (unescapeBytes s).map (c :: ·)

theorem forall_byte {P : UInt8 → Prop} (h : ∀ n : Fin 256, P (UInt8.ofNat n)) (b : UInt8) :
    P b := by
  have hb := h ⟨b.toNat, b.toNat_lt⟩
  rwa [UInt8.ofNat_toNat] at hb

theorem letterByte_escapeLetter : ∀ c : UInt8, ∀ letter ∈ escapeLetter c,
    letter ≠ 0x75 ∧ letterByte letter = some c :=
  forall_byte (by decide +kernel)

theorem hexByte_hexDigit : ∀ c : UInt8, c < 0x20 →
    hexByte 0x30 0x30 (hexDigit (c / 16)) (hexDigit (c % 16)) = some c :=
  forall_byte (by decide +kernel)

theorem nul_not_mem_escapeByte : ∀ c : UInt8, 0x00 ∉ escapeByte c :=
  forall_byte (by decide +kernel)

/-- The escape of a byte is read as that byte. -/
theorem unescapeBytes_escapeByte (c : UInt8) (s : CString) :
    unescapeBytes (escapeByte c ++ s) = (unescapeBytes s).map (c :: ·) := by
  cases hletter : escapeLetter c with
  | some letter =>
    obtain ⟨hne, hbyte⟩ := letterByte_escapeLetter c letter hletter
    rw [escapeByte_of_letter hletter, List.cons_append, List.singleton_append,
      unescapeBytes.eq_def]
    simp [hne, hbyte]
  | none =>
    by_cases hcontrol : c < 0x20
    · rw [escapeByte_of_control hletter hcontrol]
      simp [unicodeEscape, unescapeBytes, hexByte_hexDigit c hcontrol]
    · have hplain : c ≠ 0x22 ∧ c ≠ 0x5C := by
        unfold escapeLetter at hletter
        split_ifs at hletter with hself
        exact not_or.mp hself
      rw [escapeByte_of_plain hletter hcontrol, List.singleton_append, unescapeBytes.eq_def]
      simp [hplain, hcontrol]

theorem unescapeBytes_flatMap (src : CString) :
    unescapeBytes (src.flatMap escapeByte) = some src := by
  induction src with
  | nil => rfl
  | cons c src ih => rw [List.flatMap_cons, unescapeBytes_escapeByte, ih, Option.map_some]

/-! ## The writes -/

/-- A text that fits with its NUL is printed whole. -/
theorem snprintf_append {dstSize : Nat} {front back text : CString}
    (hsize : (front ++ back).length = dstSize) (hfits : front.length + text.length < dstSize) :
    snprintf (front ++ back) front.length (dstSize - front.length) text =
        some (text.length, front ++ text ++ 0x00 :: back.drop (text.length + 1)) ∧
      (front ++ text ++ 0x00 :: back.drop (text.length + 1)).length = dstSize := by
  rw [List.length_append] at hsize
  have hwhole : text.take (dstSize - front.length - 1) = text := List.take_of_length_le (by omega)
  have hroom : (text ++ [0x00]).length ≤ back.length := by
    rw [List.length_append, List.length_singleton]
    omega
  rw [snprintf, if_neg (by omega), hwhole, Buffer.storeAll_append hroom]
  refine ⟨by simp, ?_⟩
  simp only [List.length_append, List.length_cons, List.length_drop]
  omega

/-- One pass of the loop on the buffer: the escape of the byte is written behind the front, or the
loop ends. -/
theorem escapeInto_cons {dstSize : Nat} {front back : CString}
    (hsize : (front ++ back).length = dstSize) (c : UInt8) (src : CString) :
    (front.length + (escapeByte c).length < dstSize → ∃ back',
      (front ++ escapeByte c ++ back').length = dstSize ∧
        escapeInto dstSize (c :: src) front.length (front ++ back) =
          escapeInto dstSize src (front ++ escapeByte c).length (front ++ escapeByte c ++ back')) ∧
      (dstSize ≤ front.length + (escapeByte c).length →
        escapeInto dstSize (c :: src) front.length (front ++ back) =
          some (front.length, front ++ back)) := by
  have hroom : front.length + back.length = dstSize := by rw [← List.length_append, hsize]
  have hwrite : ∀ text : CString, front.length + text.length < dstSize →
      Buffer.storeAll (front ++ back) front.length text =
        some (front ++ text ++ back.drop text.length) ∧
      (front ++ text ++ back.drop text.length).length = dstSize := by
    intro text hfits
    refine ⟨Buffer.storeAll_append (by omega) front, ?_⟩
    simp only [List.length_append, List.length_drop]
    omega
  rw [escapeInto]
  cases hletter : escapeLetter c with
  | some letter =>
    rw [escapeByte_of_letter hletter]
    simp only [List.length_cons, List.length_nil]
    refine ⟨fun hfits => ?_, fun hfull => ?_⟩
    · obtain ⟨hstore, hlen⟩ := hwrite [0x5C, letter] hfits
      refine ⟨_, hlen, ?_⟩
      simp only [Buffer.storeAll, Option.bind_fun_some] at hstore
      rw [if_pos (by omega), if_neg (by omega), Option.bind_eq_bind, ← Option.bind_assoc, hstore]
      simp
    · split_ifs <;> rfl
  | none =>
    by_cases hcontrol : c < 0x20
    · have hlen : (unicodeEscape c).length = 6 := rfl
      rw [escapeByte_of_control hletter hcontrol, hlen]
      simp only [if_pos hcontrol]
      refine ⟨fun hfits => ?_, fun hfull => ?_⟩
      · obtain ⟨hprint, hlength⟩ := snprintf_append hsize (hlen.symm ▸ hfits)
        refine ⟨_, hlength, ?_⟩
        rw [if_pos (by omega), if_neg (by omega), hprint]
        simp [hlen]
      · split_ifs <;> rfl
    · rw [escapeByte_of_plain hletter hcontrol]
      simp only [if_neg hcontrol, List.length_singleton]
      refine ⟨fun hfits => ?_, fun hfull => if_neg (by omega)⟩
      obtain ⟨hstore, hlen⟩ := hwrite [c] hfits
      refine ⟨_, hlen, ?_⟩
      simp only [Buffer.storeAll, Option.bind_fun_some] at hstore
      rw [if_pos hfits, hstore]
      simp

/-- The loop on the buffer leaves in front what the loop on lists computes. -/
theorem escapeInto_eq {dstSize : Nat} (src : CString) {front back : CString}
    (hsize : (front ++ back).length = dstSize) :
    ∃ rest, (escapeLoop dstSize front src ++ rest).length = dstSize ∧
      escapeInto dstSize src front.length (front ++ back) =
        some ((escapeLoop dstSize front src).length, escapeLoop dstSize front src ++ rest) := by
  induction src generalizing front back with
  | nil => exact ⟨back, hsize, rfl⟩
  | cons c src ih =>
    obtain ⟨hstep, hend⟩ := escapeInto_cons hsize c src
    rw [escapeLoop_cons]
    split_ifs with hfits
    · obtain ⟨back', hsize', hinto⟩ := hstep hfits
      rw [hinto]
      exact ih hsize'
    · exact ⟨back, hsize, hend (Nat.le_of_not_lt hfits)⟩

/-- The buffer holds the bytes of the escape, their terminator, and what was there before. -/
theorem vibeJsonEscapeInto_eq {dstSize : Nat} (hpos : 1 ≤ dstSize) {dst : CString}
    (hdst : dst.length = dstSize) (src : CString) :
    ∃ rest, (vibeJsonEscape dstSize (some src) ++ 0x00 :: rest).length = dstSize ∧
      vibeJsonEscapeInto dst dstSize (some src) =
        some (Int32.ofNat (vibeJsonEscape dstSize (some src)).length,
          vibeJsonEscape dstSize (some src) ++ 0x00 :: rest) := by
  obtain ⟨rest, hsize, hinto⟩ := escapeInto_eq src (show ([] ++ dst).length = dstSize from hdst)
  have hfits : (escapeLoop dstSize [] src).length < dstSize :=
    (escaped_vibeJsonEscape hpos src).fits
  cases rest with
  | nil => simp at hsize; omega
  | cons y rest =>
    refine ⟨rest, by simpa [vibeJsonEscape] using hsize, ?_⟩
    have hstart : escapeInto dstSize src 0 dst = some ((escapeLoop dstSize [] src).length,
      escapeLoop dstSize [] src ++ y :: rest) := hinto
    rw [vibeJsonEscapeInto, hstart]
    simp [hfits, Buffer.store_append, vibeJsonEscape]

/-- The buffer holds a terminated text of bytes and complete escapes, which spells the longest
beginning of the source whose escape leaves room for the terminator. -/
structure EscapedInto (dstSize : Nat) (src buffer out : CString) : Prop where
  size : buffer.length = dstSize
  terminated : ∃ rest, buffer = out ++ 0x00 :: rest
  nulFree : 0x00 ∉ out
  bounded : out.length ≤ dstSize - 1
  spells : ∃ front, front <+: src ∧ unescapeBytes out = some front ∧
    out = front.flatMap escapeByte ∧
    ∀ longer, longer <+: src → (longer.flatMap escapeByte).length ≤ dstSize - 1 → longer <+: front

/-- The loop leaves the escaped text and a terminator in the buffer. -/
theorem escapedInto_vibeJsonEscape {dstSize : Nat} (hpos : 1 ≤ dstSize) {src rest : CString}
    (hsize : (vibeJsonEscape dstSize (some src) ++ 0x00 :: rest).length = dstSize) :
    EscapedInto dstSize src (vibeJsonEscape dstSize (some src) ++ 0x00 :: rest)
      (vibeJsonEscape dstSize (some src)) := by
  obtain ⟨hfits, front, back, hsrc, hout, hlongest⟩ := escaped_vibeJsonEscape hpos src
  refine ⟨hsize, ⟨rest, rfl⟩, ?_, by omega, front, ⟨back, hsrc.symm⟩, ?_, hout, ?_⟩
  · rw [hout]
    intro hmem
    obtain ⟨c, -, hc⟩ := List.mem_flatMap.mp hmem
    exact nul_not_mem_escapeByte c hc
  · rw [hout, unescapeBytes_flatMap]
  · intro longer hlonger hlen
    rcases List.prefix_or_prefix_of_prefix hlonger ⟨back, hsrc.symm⟩ with h | ⟨more, rfl⟩
    · exact h
    · cases more with
      | nil => simp
      | cons c more =>
        -- the byte behind the front does not fit
        exfalso
        obtain ⟨tail, htail⟩ := hlonger
        rw [hsrc, List.append_assoc, List.append_cancel_left_eq] at htail
        have hnext := hlongest c (more ++ tail) htail.symm
        rw [List.flatMap_append, List.flatMap_cons, List.length_append, List.length_append,
          ← hout] at hlen
        omega

/-- For every source and every buffer of at least one byte the function stays inside the buffer and
leaves there, terminated, the escape of the longest beginning of the source that fits. The `int`
it returns is the length of that escape cut to 32 bits, and so the length itself below 2 ^ 31. -/
theorem escapedInto_vibeJsonEscapeInto {dstSize : Nat} (hpos : 1 ≤ dstSize) {dst : CString}
    (hdst : dst.length = dstSize) (src : CString) :
    ∃ returned buffer out, vibeJsonEscapeInto dst dstSize (some src) = some (returned, buffer) ∧
      EscapedInto dstSize src buffer out ∧ returned = Int32.ofNat out.length ∧
      (out.length < 2 ^ 31 → returned.toInt = out.length) := by
  obtain ⟨rest, hsize, hinto⟩ := vibeJsonEscapeInto_eq hpos hdst src
  exact ⟨_, _, _, hinto, escapedInto_vibeJsonEscape hpos hsize, rfl, Int32.toInt_ofNat_of_lt⟩

/-- A source cut before an escape that does not fit. -/
theorem escapedInto_newline : ∃ out,
    vibeJsonEscapeInto [1, 2, 3, 4] 4 (some [0x61, 0x62, 0x0A]) = some (2, [0x61, 0x62, 0x00, 4]) ∧
      EscapedInto 4 [0x61, 0x62, 0x0A] [0x61, 0x62, 0x00, 4] out := by
  obtain ⟨returned, buffer, out, hinto, hescaped, -⟩ :=
    escapedInto_vibeJsonEscapeInto (show 1 ≤ 4 by decide)
      (show ([1, 2, 3, 4] : CString).length = 4 from rfl)
      [0x61, 0x62, 0x0A]
  have hrun : vibeJsonEscapeInto [1, 2, 3, 4] 4 (some [0x61, 0x62, 0x0A]) =
    some (2, [0x61, 0x62, 0x00, 4]) := by decide
  obtain ⟨-, rfl⟩ := Prod.mk.inj (Option.some.inj (hinto.symm.trans hrun))
  exact ⟨out, hrun, hescaped⟩

/-- A source of letters is escaped whole in a buffer with one byte more. -/
theorem length_of_escapedInto_replicate {n : Nat} {buffer out : CString}
    (h : EscapedInto (n + 1) (List.replicate n 0x61) buffer out) : out.length = n := by
  have hbyte : (escapeByte 0x61).length = 1 := by decide
  have hlen : ((List.replicate n (0x61 : UInt8)).flatMap escapeByte).length = n := by
    simp [List.flatMap_replicate, hbyte]
  obtain ⟨front, hfront, -, hout, hlongest⟩ := h.spells
  have hwhole : front = List.replicate n 0x61 :=
    hfront.eq_of_length_le (hlongest _ List.prefix_rfl (by omega)).length_le
  rw [hout, hwhole, hlen]

/-- From 2 ^ 31 letters on no `int` is the length of the escape. -/
theorem returned_ne_of_le {n : Nat} (hn : 2 ^ 31 ≤ n) : ¬ ∀ (dstSize : Nat) (dst src : CString),
    1 ≤ dstSize → dst.length = dstSize → 0x00 ∉ src → ∃ returned buffer out,
      vibeJsonEscapeInto dst dstSize (some src) = some (returned, buffer) ∧
        EscapedInto dstSize src buffer out ∧ returned.toInt = out.length := by
  intro h
  obtain ⟨returned, buffer, out, -, hescaped, hlength⟩ :=
    h (n + 1) (List.replicate (n + 1) 0x00) (List.replicate n 0x61) (Nat.le_add_left 1 n)
      List.length_replicate (by simp [List.mem_replicate])
  rw [length_of_escapedInto_replicate hescaped] at hlength
  have hlt := returned.toInt_lt
  omega

/-- A source of 2 ^ 31 letters fits a buffer with one byte more, and the `int` returned is not the
length of the escape. -/
theorem not_returned_length : ¬ ∀ (dstSize : Nat) (dst src : CString), 1 ≤ dstSize →
    dst.length = dstSize → 0x00 ∉ src → ∃ returned buffer out,
      vibeJsonEscapeInto dst dstSize (some src) = some (returned, buffer) ∧
        EscapedInto dstSize src buffer out ∧ returned.toInt = out.length :=
  returned_ne_of_le (Nat.le_refl (2 ^ 31))

end VibeAudit.Hooks

import VibeAudit.Extension.Hooks
import VibeAudit.Foundation.Buffer

/-!
# `vibe_json_escape` on its buffer

The function byte by byte: every write to `dst` goes through `Buffer.store`, so
a write outside the buffer is `none`. Sizes are natural numbers, since no object
is so large that `di + 6` could wrap around; the returned `int` is 32 bits wide.
-/

namespace VibeAudit.Extension

open Foundation

/-- `snprintf(dst + start, n, ...)` for a printed text: at most `n - 1` bytes of it and a NUL are
written, and the length of the whole text is returned. -/
def snprintf (dst : CString) (start n : Nat) (text : CString) : Option (Nat × CString) :=
  if n = 0 then some (text.length, dst)
  else (Buffer.storeAll dst start (text.take (n - 1) ++ [0x00])).map fun dst => (text.length, dst)

/-- The loop over the source: the index `di` and the buffer it ends with. -/
def escapeInto (dstSize : Nat) : CString → Nat → CString → Option (Nat × CString)
  | [], di, dst => some (di, dst)
  | c :: src, di, dst =>
    if di + 1 < dstSize then
      match escapeLetter c with
      | some letter =>
        if di + 2 ≥ dstSize then some (di, dst)
        else do
          let dst ← Buffer.store dst di 0x5C
          let dst ← Buffer.store dst (di + 1) letter
          escapeInto dstSize src (di + 2) dst
      | none =>
        if c < 0x20 then
          if di + 6 ≥ dstSize then some (di, dst)
          else do
            let (n, dst) ← snprintf dst di (dstSize - di) (unicodeEscape c)
            escapeInto dstSize src (di + n) dst
        else do
          let dst ← Buffer.store dst di c
          escapeInto dstSize src (di + 1) dst
    else some (di, dst)

/-- The returned `int` and the buffer. -/
def vibeJsonEscapeInto (dst : CString) (dstSize : Nat) (src : Option CString) :
    Option (Int32 × CString) :=
  match src with
  | none =>
    if dstSize > 0 then (Buffer.store dst 0 0x00).map fun dst => (0, dst) else some (0, dst)
  | some src => do
    let (di, dst) ← escapeInto dstSize src 0 dst
    let dst ←
      if di < dstSize then Buffer.store dst di 0x00
      else if dstSize > 0 then Buffer.store dst (dstSize - 1) 0x00
      else some dst
    return (Int32.ofNat di, dst)

end VibeAudit.Extension

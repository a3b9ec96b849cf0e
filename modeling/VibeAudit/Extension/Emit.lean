import VibeAudit.Extension.Hooks

/-!
# `vibe_emit.c`

One call of `vibe_emit_event`: the datagram goes to the socket, and what
`sendto` makes of it is an argument. The counter of failed sends is a C `int`
that wraps around, as the server is built with `-fwrapv`. The lines written to
the server log are returned with the new state.
-/

namespace VibeAudit.Extension

/-- `errno` after a `sendto` that failed. -/
inductive Errno where
  | eagain
  | ewouldblock
  | other
  deriving DecidableEq, Repr

/-- What `sendto` returns: a count of bytes, or -1 with `errno`. -/
inductive SendResult where
  | sent
  | failed (errno : Errno)
  deriving DecidableEq, Repr

/-- `VIBE_INVALID_SOCKET`. -/
def invalidSocket : Int32 := -1

/-- `VIBE_UDP_CONSECUTIVE_FAIL_THRESHOLD`. -/
def consecutiveFailThreshold : Int32 := 10

/-- `vibe_udp_socket` and `vibe_udp_consecutive_failures`. -/
structure UdpState where
  socket : Int32
  consecutiveFailures : Int32

/-- `%.*s`: a negative precision counts as none. -/
def precisionText (precision : Int32) (s : CString) : CString :=
  if precision < 0 then s else s.take precision.toInt.toNat

/-- The line for a send that would have blocked. -/
def blockedLine (failures : Int32) : CString :=
  bytes "vibe_audit: UDP send failed " ++ intText failures ++
    bytes " consecutive times, falling back to elog"

/-- The line for any other failed send. -/
def fallbackLine (len : Int32) (json : CString) : CString :=
  bytes "vibe_audit: UDP fallback — " ++ precisionText len json

/-- The state after the call and the lines it writes to the log. The branch on `EAGAIN` and
`EWOULDBLOCK` is compiled on all systems but Windows. -/
def vibeEmitEvent (windows : Bool) (s : UdpState) (json : CString) (len : Int32)
    (result : SendResult) : UdpState × List CString :=
  if s.socket = invalidSocket then (s, [])
  else
    match result with
    | .failed errno =>
      let s := { s with consecutiveFailures := s.consecutiveFailures + 1 }
      if !windows && (errno = .eagain || errno = .ewouldblock) then
        if s.consecutiveFailures ≥ consecutiveFailThreshold then
          (s, [blockedLine s.consecutiveFailures])
        else (s, [])
      else if s.consecutiveFailures ≥ consecutiveFailThreshold then (s, [fallbackLine len json])
      else (s, [])
    | .sent => ({ s with consecutiveFailures := 0 }, [])

/-! ## What a call does -/

section

variable {windows : Bool} {s : UdpState} (json : CString) (len : Int32)

/-- A call does not touch the socket. -/
@[simp] theorem vibeEmitEvent_socket (result : SendResult) :
    (vibeEmitEvent windows s json len result).1.socket = s.socket := by
  unfold vibeEmitEvent
  split_ifs
  · rfl
  · split
    · dsimp only
      split_ifs <;> rfl
    · rfl

theorem vibeEmitEvent_sent (h : s.socket ≠ invalidSocket) :
    vibeEmitEvent windows s json len .sent = ({ s with consecutiveFailures := 0 }, []) := by
  simp [vibeEmitEvent, h]

/-- A failed send is counted, and from the threshold on it writes one line. -/
theorem vibeEmitEvent_failed (h : s.socket ≠ invalidSocket) (errno : Errno) :
    vibeEmitEvent windows s json len (.failed errno) =
      ({ s with consecutiveFailures := s.consecutiveFailures + 1 },
        if consecutiveFailThreshold ≤ s.consecutiveFailures + 1 then
          [if windows = false ∧ errno ≠ .other then blockedLine (s.consecutiveFailures + 1)
            else fallbackLine len json]
        else []) := by
  cases windows <;> cases errno <;> simp [vibeEmitEvent, h] <;> split_ifs <;> rfl

end

end VibeAudit.Extension

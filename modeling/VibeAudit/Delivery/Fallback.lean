import Mathlib.Data.List.DropRight
import VibeAudit.Extension.Emit
import VibeAudit.Hooks.Fields

/-!
# The fallback to the server log

A history is a list of calls of `vibe_emit_event`, each with the event handed
over and the result of its `sendto`. The counter follows the failures at the end
of the history. From the tenth on a failed event goes to the log, except where
the send would have blocked: then the log says that the sends fail, and the
event is gone.
-/

namespace VibeAudit.Delivery

open Foundation Extension

/-- A call by a hook: an event that fits the buffer, and what becomes of the datagram. -/
structure EmitCall where
  members : List EventMember
  fits : emit (printEvent members) = some (printEvent members)
  result : SendResult

namespace EmitCall

def json (c : EmitCall) : CString := printEvent c.members

def len (c : EmitCall) : Int32 := Int32.ofNat c.json.length

def failed (c : EmitCall) : Bool := c.result != .sent

def wouldBlock (c : EmitCall) : Bool :=
  c.result == .failed .eagain || c.result == .failed .ewouldblock

def perform (windows : Bool) (s : UdpState) (c : EmitCall) : UdpState × List CString :=
  vibeEmitEvent windows s c.json c.len c.result

end EmitCall

def emitAll (windows : Bool) (s : UdpState) (calls : List EmitCall) : UdpState :=
  calls.foldl (fun s c => (c.perform windows s).1) s

/-- The number of failed sends that a history ends with. -/
def failureRun (calls : List EmitCall) : Nat := (calls.rtakeWhile EmitCall.failed).length

/-- After the call the counter is the length of the current run of failures, and a send that failed
as the tenth in a row or later has its event in the log. -/
def FallsBackAt (windows : Bool) (s : UdpState) (before : List EmitCall) (c : EmitCall) : Prop :=
  (emitAll windows s (before ++ [c])).consecutiveFailures.toInt = failureRun (before ++ [c]) ∧
    (c.failed = true → 10 ≤ failureRun (before ++ [c]) →
      ∃ line ∈ (c.perform windows (emitAll windows s before)).2, c.json <:+: line)

/-! ## One call -/

theorem EmitCall.len_eq (c : EmitCall) : c.len.toInt = c.json.length := by
  have hfits := c.fits
  unfold emit at hfits
  split_ifs at hfits with h
  exact Int32.toInt_ofNat_of_lt (h.2.trans (by decide))

/-- The fallback line ends with the whole event. -/
theorem EmitCall.infix_fallbackLine (c : EmitCall) : c.json <:+: fallbackLine c.len c.json := by
  have hwhole : precisionText c.len c.json = c.json := by
    have hlen := c.len_eq
    have hnonneg : ¬ c.len < 0 := by
      rw [Int32.lt_iff_toInt_lt, hlen, Int32.toInt_zero]
      omega
    rw [precisionText, if_neg hnonneg, hlen]
    exact List.take_of_length_le (by simp)
  rw [fallbackLine, hwhole]
  exact (List.suffix_append _ _).isInfix

/-- A number is printed without braces. -/
theorem brace_not_mem_intText (n : Int32) : 0x7B ∉ intText n := by
  intro hmem
  obtain ⟨c, hc, hbyte⟩ := List.mem_flatMap.mp hmem
  have hrange : c.toNat < 123 := by
    rcases Hooks.mem_toString hc with hdigit | rfl
    · simp only [Char.isDigit, Bool.and_eq_true, decide_eq_true_eq] at hdigit
      have hle : c.toNat ≤ 57 := hdigit.2
      omega
    · decide
  rw [Utf8.encode_ascii (by omega), List.mem_singleton] at hbyte
  have hnat : 123 = c.val.toUInt8.toNat := congrArg UInt8.toNat hbyte
  rw [UInt32.toNat_toUInt8] at hnat
  have hval : c.val.toNat < 123 := hrange
  omega

/-- The line of a send that would have blocked says nothing of the event. -/
theorem EmitCall.not_infix_blockedLine (c : EmitCall) (n : Int32) :
    ¬ c.json <:+: blockedLine n := by
  intro h
  have hbrace : 0x7B ∈ blockedLine n := h.subset List.mem_cons_self
  rw [blockedLine, List.mem_append, List.mem_append] at hbrace
  rcases hbrace with (hfront | hnumber) | hback
  · exact absurd hfront (by decide +kernel)
  · exact brace_not_mem_intText n hnumber
  · exact absurd hback (by decide +kernel)

/-! ## Histories -/

theorem failureRun_snoc (calls : List EmitCall) (c : EmitCall) :
    failureRun (calls ++ [c]) = if c.failed then failureRun calls + 1 else 0 := by
  rw [failureRun, List.rtakeWhile_concat]
  split_ifs <;> simp [failureRun]

section

variable {windows : Bool} {s : UdpState}

theorem emitAll_snoc (calls : List EmitCall) (c : EmitCall) :
    emitAll windows s (calls ++ [c]) = (c.perform windows (emitAll windows s calls)).1 := by
  simp [emitAll]

theorem socket_emitAll (calls : List EmitCall) :
    (emitAll windows s calls).socket = s.socket := by
  induction calls using List.reverseRecOn with
  | nil => rfl
  | append_singleton calls c ih => rw [emitAll_snoc, EmitCall.perform, vibeEmitEvent_socket, ih]

/-- The counter counts the run of failures modulo the width of an `int`. -/
theorem consecutiveFailures_emitAll (hsocket : s.socket ≠ invalidSocket)
    (hzero : s.consecutiveFailures = 0) (calls : List EmitCall) :
    (emitAll windows s calls).consecutiveFailures = Int32.ofNat (failureRun calls) := by
  induction calls using List.reverseRecOn with
  | nil => exact hzero
  | append_singleton calls c ih =>
    have hvalid : (emitAll windows s calls).socket ≠ invalidSocket := by rwa [socket_emitAll]
    rw [emitAll_snoc, EmitCall.perform]
    cases hresult : c.result with
    | sent =>
      have hsent : ¬ c.failed = true := by simp [EmitCall.failed, hresult]
      rw [vibeEmitEvent_sent _ _ hvalid, failureRun_snoc, if_neg hsent]
      rfl
    | failed errno =>
      have hfailed : c.failed = true := by simp [EmitCall.failed, hresult]
      rw [vibeEmitEvent_failed _ _ hvalid, failureRun_snoc, if_pos hfailed, Int32.ofNat_add, ih]
      rfl

/-- The lines a failed call writes. -/
theorem perform_log (hsocket : s.socket ≠ invalidSocket) (hzero : s.consecutiveFailures = 0)
    (calls : List EmitCall) {c : EmitCall} (hfailed : c.failed = true) :
    (c.perform windows (emitAll windows s calls)).2 =
      if consecutiveFailThreshold ≤ Int32.ofNat (failureRun (calls ++ [c])) then
        [if windows = false ∧ c.wouldBlock = true then
            blockedLine (Int32.ofNat (failureRun (calls ++ [c])))
          else fallbackLine c.len c.json]
      else [] := by
  have hvalid : (emitAll windows s calls).socket ≠ invalidSocket := by rwa [socket_emitAll]
  rw [EmitCall.perform]
  cases hresult : c.result with
  | sent => simp [EmitCall.failed, hresult] at hfailed
  | failed errno =>
    have hblock : c.wouldBlock = true ↔ errno ≠ .other := by
      cases errno <;> simp [EmitCall.wouldBlock, hresult]
    rw [vibeEmitEvent_failed _ _ hvalid, consecutiveFailures_emitAll hsocket hzero,
      failureRun_snoc, if_pos hfailed, Int32.ofNat_add]
    simp only [hblock]
    rfl

end

/-- A call falls back as it should unless the run of failures outgrows an `int`, or a send that
would have blocked is the tenth failure in a row or a later one. -/
theorem fallsBackAt_iff (windows : Bool) {s : UdpState} (hsocket : s.socket ≠ invalidSocket)
    (hzero : s.consecutiveFailures = 0) (before : List EmitCall) (c : EmitCall) :
    FallsBackAt windows s before c ↔ failureRun (before ++ [c]) < 2 ^ 31 ∧
      (windows = false → c.wouldBlock = true → failureRun (before ++ [c]) < 10) := by
  have hcounter : (emitAll windows s (before ++ [c])).consecutiveFailures.toInt =
      failureRun (before ++ [c]) ↔ failureRun (before ++ [c]) < 2 ^ 31 := by
    rw [consecutiveFailures_emitAll hsocket hzero]
    constructor
    · intro heq
      have hlt := Int32.toInt_lt (Int32.ofNat (failureRun (before ++ [c])))
      omega
    · exact Int32.toInt_ofNat_of_lt
  rw [FallsBackAt, hcounter]
  refine and_congr_right fun hsmall => ?_
  have hthreshold : consecutiveFailThreshold ≤ Int32.ofNat (failureRun (before ++ [c])) ↔
      10 ≤ failureRun (before ++ [c]) := by
    have hten : consecutiveFailThreshold.toInt = 10 := rfl
    rw [Int32.le_iff_toInt_le, Int32.toInt_ofNat_of_lt hsmall, hten]
    omega
  have hblocked : c.wouldBlock = true → c.failed = true := by
    intro h
    cases hresult : c.result <;> simp_all [EmitCall.wouldBlock, EmitCall.failed]
  constructor
  · intro h hwindows hblock
    by_contra hlong
    obtain ⟨line, hline, hinfix⟩ := h (hblocked hblock) (by omega)
    rw [perform_log hsocket hzero before (hblocked hblock), if_pos (hthreshold.mpr (by omega)),
      if_pos ⟨hwindows, hblock⟩] at hline
    obtain rfl := List.mem_singleton.mp hline
    exact c.not_infix_blockedLine _ hinfix
  · intro h hfailed hlong
    rw [perform_log hsocket hzero before hfailed, if_pos (hthreshold.mpr hlong), if_neg]
    · exact ⟨_, List.mem_singleton_self _, c.infix_fallbackLine⟩
    · rintro ⟨hwindows, hblock⟩
      have := h hwindows hblock
      omega

/-- Every call of a history falls back as it should exactly when no run of failures outgrows an
`int`, and, except on Windows, no send that would have blocked is the tenth failure in a row or a
later one. -/
theorem fallsBack_iff (windows : Bool) {s : UdpState} (hsocket : s.socket ≠ invalidSocket)
    (hzero : s.consecutiveFailures = 0) (calls : List EmitCall) :
    (∀ before c, before ++ [c] <+: calls → FallsBackAt windows s before c) ↔
      ∀ before c, before ++ [c] <+: calls → failureRun (before ++ [c]) < 2 ^ 31 ∧
        (windows = false → c.wouldBlock = true → failureRun (before ++ [c]) < 10) := by
  refine forall_congr' fun before => forall_congr' fun c => imp_congr_right fun _ => ?_
  exact fallsBackAt_iff windows hsocket hzero before c

def loginCall (result : SendResult) : EmitCall where
  members := authMembers ⟨1767225600, 0, Nat.zero_lt_succ _⟩ 4242 none
    ⟨some (bytes "alice"), some (bytes "bank"), some (bytes "::1"), some (bytes "5432")⟩ true
  fits := by decide +kernel
  result := result

/-- The twelfth hard error in a row is counted, and its event is in the log. -/
theorem fallsBack_twelfth : FallsBackAt false ⟨5, 0⟩
    (List.replicate 11 (loginCall (.failed .other))) (loginCall (.failed .other)) := by
  refine (fallsBack_iff false (s := ⟨5, 0⟩) (by decide) rfl
    (List.replicate 11 (loginCall (.failed .other)) ++ [loginCall (.failed .other)])).mpr
      (fun before c hpre => ⟨?_, ?_⟩) _ _ List.prefix_rfl
  · have hlen := hpre.length_le
    have hrun : failureRun (before ++ [c]) ≤ (before ++ [c]).length :=
      (List.rtakeWhile_suffix _ _).length_le
    have htwelve : (List.replicate 11 (loginCall (.failed .other)) ++
      [loginCall (.failed .other)]).length = 12 := rfl
    omega
  · have hmem : c ∈ List.replicate 11 (loginCall (.failed .other)) ++
        [loginCall (.failed .other)] := hpre.subset (by simp)
    have hc : c = loginCall (.failed .other) := by simpa using hmem
    simp [hc, loginCall, EmitCall.wouldBlock]

/-- Ten sends in a row that would have blocked: the log has no word of the tenth event. -/
theorem not_fallsBack : ¬ ∀ (windows : Bool) (s : UdpState) (calls : List EmitCall),
    s.socket ≠ invalidSocket → s.consecutiveFailures = 0 →
      ∀ before c, before ++ [c] <+: calls → FallsBackAt windows s before c := by
  intro h
  have htenth := h false ⟨5, 0⟩ (List.replicate 9 (loginCall (.failed .eagain)) ++
    [loginCall (.failed .eagain)]) (by decide) rfl _ _ List.prefix_rfl
  have hshort := ((fallsBackAt_iff false (s := ⟨5, 0⟩) (by decide) rfl _ _).mp htenth).2 rfl rfl
  exact absurd hshort (by decide)

end VibeAudit.Delivery

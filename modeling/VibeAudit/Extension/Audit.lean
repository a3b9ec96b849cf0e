import VibeAudit.Extension.Hooks

/-!
# `vibe_audit.c`

The hooks around the work of a server process. What the server does between two
hooks is arbitrary: statements run other statements, blocks catch errors and roll
back, and every step may depend on the state. The hooks hand over one event for
every audited statement that ends. They change what the server does in one way:
looking up the name of the current user raises an error if it has no role.
-/

namespace VibeAudit.Extension

/-- The settings that the hooks read. -/
structure Settings where
  enabled : Bool
  executorMode : Option CString

/-- What the hooks and the server ask of a state: `rollback` is the state in which an error leaves
a block, from the states in front of it and at the error. -/
structure Backend (σ : Type) where
  settings : σ → Settings
  now : σ → Timeval
  session : σ → Session
  superuser : σ → Bool
  rollback : σ → σ → σ

/-- What a call of `ProcessUtility` is about. -/
structure UtilityCall where
  utilityStmt : Option UtilityStmt
  queryString : Option CString

/-- The work of a server process. A body stands for what the previous hook or the standard function
does, with the statements that it runs itself. -/
inductive Work (σ ε : Type) where
  | done
  | act (f : σ → Except ε σ)
  | seq (first second : Work σ ε)
  | choose (f : σ → Work σ ε)
  | attempt (body : Work σ ε) (handler : ε → Work σ ε)
  | authentication (port : Port) (ok : Bool) (prev : Work σ ε)
  | utility (call : UtilityCall) (body : Work σ ε)
  | query (queryDesc : Option QueryDesc) (body close : Work σ ε)

/-- The state of the server, and the datagrams handed to `vibe_emit_event`. -/
structure Audited (σ : Type) where
  server : σ
  handed : List CString

abbrev Computation (σ ε : Type) := EStateM ε (Audited σ)

variable {σ ε : Type}

/-! ## The hooks -/

/-- An event that fits the buffer is handed over. -/
def handOver (event : Option CString) : Computation σ ε Unit :=
  modify fun s => { s with handed := s.handed ++ event.toList }

namespace Backend

variable (b : Backend σ)

def authEvent (port : Port) (ok : Bool) (s : σ) : Option CString :=
  vibeEmitAuthEvent (b.now s) (b.session s).pid (b.session s).applicationName port ok

def utilityEvent (call : UtilityCall) (success : Bool) (s : σ) : Option CString :=
  vibeEmitUtilityEventWithStatus (b.now s) (b.session s) call.utilityStmt call.queryString success

def executorEvent (queryDesc : Option QueryDesc) (s : σ) : Option CString :=
  vibeEmitExecutorEvent (b.now s) (b.session s) queryDesc

/-- The condition of `vibe_executor_end_hook`. -/
def emitsQueries (s : σ) : Bool :=
  (b.settings s).enabled && (b.settings s).executorMode == some (bytes "emit") && b.superuser s

end Backend

/-- `GetUserNameFromId(GetUserId(), false)`, where it raises an error. -/
def lookUp (noUser : σ → Option ε) : Computation σ ε Unit := do
  match noUser (← get).server with
  | some error => throw error
  | none => pure ()

/-- `vibe_emit_utility_event_with_status` comes to the names of the session. -/
def UtilityCall.isTagged (call : UtilityCall) : Bool :=
  (call.utilityStmt.bind vibeNodeTagToDdl).isSome

/-- So does `vibe_emit_executor_event`. -/
def hasText (queryDesc : Option QueryDesc) : Bool := (queryDesc.bind (·.sourceText)).isSome

def lookUpUtility (noUser : σ → Option ε) (call : UtilityCall) : Computation σ ε Unit :=
  if call.isTagged then lookUp noUser else pure ()

def lookUpQuery (noUser : σ → Option ε) (queryDesc : Option QueryDesc) : Computation σ ε Unit :=
  if hasText queryDesc then lookUp noUser else pure ()

def emitUtility (b : Backend σ) (noUser : σ → Option ε) (call : UtilityCall) (success : Bool) :
    Computation σ ε Unit := do
  lookUpUtility noUser call
  handOver (b.utilityEvent call success (← get).server)

def emitQuery (b : Backend σ) (noUser : σ → Option ε) (queryDesc : Option QueryDesc) :
    Computation σ ε Unit := do
  lookUpQuery noUser queryDesc
  handOver (b.executorEvent queryDesc (← get).server)

/-- What runs where the server calls a hook; the last argument is what would run without it. -/
structure HookTable (σ ε : Type) where
  clientAuth : Port → Bool → Computation σ ε Unit → Computation σ ε Unit
  processUtility : UtilityCall → Computation σ ε Unit → Computation σ ε Unit
  executorEnd : Option QueryDesc → Computation σ ε Unit → Computation σ ε Unit

def HookTable.standard : HookTable σ ε where
  clientAuth _ _ prev := prev
  processUtility _ body := body
  executorEnd _ close := close

def vibeClientAuthHook (b : Backend σ) (port : Port) (ok : Bool) (prev : Computation σ ε Unit) :
    Computation σ ε Unit := do
  prev
  let s := (← get).server
  if (b.settings s).enabled then
    handOver (b.authEvent port ok s)

def vibeProcessUtilityHook (b : Backend σ) (noUser : σ → Option ε) (call : UtilityCall)
    (body : Computation σ ε Unit) : Computation σ ε Unit := do
  let emit := (b.settings (← get).server).enabled
  try
    body
  catch error =>
    if emit then
      emitUtility b noUser call false
    throw error
  if emit then
    emitUtility b noUser call true

def vibeExecutorEndHook (b : Backend σ) (noUser : σ → Option ε) (queryDesc : Option QueryDesc)
    (close : Computation σ ε Unit) : Computation σ ε Unit := do
  if b.emitsQueries (← get).server then
    emitQuery b noUser queryDesc
  close

/-- `_PG_init` installs the hooks. -/
def HookTable.vibeOver (b : Backend σ) (noUser : σ → Option ε) : HookTable σ ε where
  clientAuth := vibeClientAuthHook b
  processUtility := vibeProcessUtilityHook b noUser
  executorEnd := vibeExecutorEndHook b noUser

/-- The hooks of a server in which every user has a role. -/
def HookTable.vibe (b : Backend σ) : HookTable σ ε := .vibeOver b fun _ => none

/-- Hooks that look up the user where those of the extension do, and hand nothing over. -/
def HookTable.lookups (b : Backend σ) (noUser : σ → Option ε) : HookTable σ ε where
  clientAuth _ _ prev := prev
  processUtility call body := do
    let emit := (b.settings (← get).server).enabled
    try
      body
    catch error =>
      if emit then
        lookUpUtility noUser call
      throw error
    if emit then
      lookUpUtility noUser call
  executorEnd queryDesc close := do
    if b.emitsQueries (← get).server then
      lookUpQuery noUser queryDesc
    close

/-- Perform the work with the hooks of a table. -/
def Work.perform (b : Backend σ) (hooks : HookTable σ ε) : Work σ ε → Computation σ ε Unit
  | .done => pure ()
  | .act f => do
    let s ← get
    match f s.server with
    | .ok t => set { s with server := t }
    | .error error => throw error
  | .seq first second => do
    first.perform b hooks
    second.perform b hooks
  | .choose f => do
    let s ← get
    (f s.server).perform b hooks
  | .attempt body handler => do
    let before := (← get).server
    try
      body.perform b hooks
    catch error =>
      modify fun s => { s with server := b.rollback before s.server }
      (handler error).perform b hooks
  | .authentication port ok prev => hooks.clientAuth port ok (prev.perform b hooks)
  | .utility call body => hooks.processUtility call (body.perform b hooks)
  | .query queryDesc body close => do
    body.perform b hooks
    hooks.executorEnd queryDesc (close.perform b hooks)

/-! ## What the work means -/

/-- What has come to an end, with the states at its beginning and at its end. -/
inductive Ended (σ : Type) where
  | authentication (port : Port) (ok : Bool) (t : σ)
  | utility (call : UtilityCall) (s t : σ) (success : Bool)
  | query (queryDesc : Option QueryDesc) (t : σ)

/-- The work takes one state to another, ends with the error if there is one, and leaves a trail of
what has ended in the order of the ends. Nothing here knows of hooks. -/
inductive Exec (b : Backend σ) : Work σ ε → σ → σ → Option ε → List (Ended σ) → Prop where
  | done (s : σ) : Exec b .done s s none []
  | act {f : σ → Except ε σ} {s t : σ} (h : f s = .ok t) : Exec b (.act f) s t none []
  | raise {f : σ → Except ε σ} {s : σ} {error : ε} (h : f s = .error error) :
    Exec b (.act f) s s (some error) []
  | seq {first second : Work σ ε} {s t u : σ} {r : Option ε} {trail trail' : List (Ended σ)}
    (h : Exec b first s t none trail) (h' : Exec b second t u r trail') :
    Exec b (.seq first second) s u r (trail ++ trail')
  | seqFailed {first second : Work σ ε} {s t : σ} {error : ε} {trail : List (Ended σ)}
    (h : Exec b first s t (some error) trail) :
    Exec b (.seq first second) s t (some error) trail
  | choose {f : σ → Work σ ε} {s t : σ} {r : Option ε} {trail : List (Ended σ)}
    (h : Exec b (f s) s t r trail) : Exec b (.choose f) s t r trail
  | attempt {body : Work σ ε} {handler : ε → Work σ ε} {s t : σ} {trail : List (Ended σ)}
    (h : Exec b body s t none trail) : Exec b (.attempt body handler) s t none trail
  | handle {body : Work σ ε} {handler : ε → Work σ ε} {s t u : σ} {error : ε} {r : Option ε}
    {trail trail' : List (Ended σ)} (h : Exec b body s t (some error) trail)
    (h' : Exec b (handler error) (b.rollback s t) u r trail') :
    Exec b (.attempt body handler) s u r (trail ++ trail')
  | authentication {port : Port} {ok : Bool} {prev : Work σ ε} {s t : σ} {trail : List (Ended σ)}
    (h : Exec b prev s t none trail) :
    Exec b (.authentication port ok prev) s t none (trail ++ [.authentication port ok t])
  | authenticationFailed {port : Port} {ok : Bool} {prev : Work σ ε} {s t : σ} {error : ε}
    {trail : List (Ended σ)} (h : Exec b prev s t (some error) trail) :
    Exec b (.authentication port ok prev) s t (some error) trail
  | utility {call : UtilityCall} {body : Work σ ε} {s t : σ} {r : Option ε}
    {trail : List (Ended σ)} (h : Exec b body s t r trail) :
    Exec b (.utility call body) s t r (trail ++ [.utility call s t r.isNone])
  | query {queryDesc : Option QueryDesc} {body close : Work σ ε} {s t u : σ} {r : Option ε}
    {trail trail' : List (Ended σ)} (h : Exec b body s t none trail)
    (h' : Exec b close t u r trail') :
    Exec b (.query queryDesc body close) s u r (trail ++ .query queryDesc t :: trail')
  | queryFailed {queryDesc : Option QueryDesc} {body close : Work σ ε} {s t : σ} {error : ε}
    {trail : List (Ended σ)} (h : Exec b body s t (some error) trail) :
    Exec b (.query queryDesc body close) s t (some error) trail

variable {b : Backend σ} {w : Work σ ε} {s t : σ} {r : Option ε} {trail : List (Ended σ)}

/-- Work always comes to an end. -/
theorem Exec.exists (b : Backend σ) (w : Work σ ε) (s : σ) : ∃ t r trail, Exec b w s t r trail := by
  induction w generalizing s with
  | done => exact ⟨s, none, [], .done s⟩
  | act f =>
    cases h : f s with
    | ok t => exact ⟨t, none, [], .act h⟩
    | error error => exact ⟨s, some error, [], .raise h⟩
  | seq first second ih ih' =>
    obtain ⟨t, r, trail, h⟩ := ih s
    cases r with
    | some error => exact ⟨t, _, trail, .seqFailed h⟩
    | none =>
      obtain ⟨u, r, trail', h'⟩ := ih' t
      exact ⟨u, r, _, .seq h h'⟩
  | choose f ih =>
    obtain ⟨t, r, trail, h⟩ := ih s s
    exact ⟨t, r, trail, .choose h⟩
  | attempt body handler ih ih' =>
    obtain ⟨t, r, trail, h⟩ := ih s
    cases r with
    | none => exact ⟨t, _, trail, .attempt h⟩
    | some error =>
      obtain ⟨u, r, trail', h'⟩ := ih' error (b.rollback s t)
      exact ⟨u, r, _, .handle h h'⟩
  | authentication port ok prev ih =>
    obtain ⟨t, r, trail, h⟩ := ih s
    cases r with
    | none => exact ⟨t, _, _, .authentication h⟩
    | some error => exact ⟨t, _, _, .authenticationFailed h⟩
  | utility call body ih =>
    obtain ⟨t, r, trail, h⟩ := ih s
    exact ⟨t, r, _, .utility h⟩
  | query queryDesc body close ih ih' =>
    obtain ⟨t, r, trail, h⟩ := ih s
    cases r with
    | some error => exact ⟨t, _, trail, .queryFailed h⟩
    | none =>
      obtain ⟨u, r, trail', h'⟩ := ih' t
      exact ⟨u, r, _, .query h h'⟩

/-! ## Hooks that hand over what has ended -/

def result (t : σ) (handed : List CString) : Option ε → EStateM.Result ε (Audited σ) Unit
  | none => .ok () ⟨t, handed⟩
  | some error => .error error ⟨t, handed⟩

/-- An error leaves the state as it is for the handler. -/
theorem run_tryCatch (body : Computation σ ε Unit) (handler : ε → Computation σ ε Unit)
    (s : Audited σ) : (tryCatch body handler).run s =
      match body.run s with
      | .ok _ t => .ok () t
      | .error error t => (handler error).run t := by
  simp only [tryCatch, tryCatchThe, MonadExceptOf.tryCatch, EStateM.tryCatch, EStateM.run]
  cases body s <;> rfl

@[simp] theorem run_handOver (event : Option CString) (s : Audited σ) :
    (handOver event : Computation σ ε Unit).run s =
      .ok () { s with handed := s.handed ++ event.toList } := rfl

/-- Where `named` holds of what has ended, the hooks change nothing but the datagrams, and hand over
`event` of it. -/
structure HookTable.HandsOver (hooks : HookTable σ ε) (named : Ended σ → Prop)
    (event : Ended σ → Option CString) : Prop where
  clientAuth : ∀ {port ok} {prev : Computation σ ε Unit} {s t handed handed'},
    prev.run ⟨s, handed⟩ = .ok () ⟨t, handed'⟩ → (hooks.clientAuth port ok prev).run ⟨s, handed⟩ =
      .ok () ⟨t, handed' ++ (event (.authentication port ok t)).toList⟩
  clientAuthFailed : ∀ {port ok} {prev : Computation σ ε Unit} {s t handed handed' error},
    prev.run ⟨s, handed⟩ = .error error ⟨t, handed'⟩ →
      (hooks.clientAuth port ok prev).run ⟨s, handed⟩ = .error error ⟨t, handed'⟩
  processUtility : ∀ {call} {body : Computation σ ε Unit} {s t handed handed' r},
    named (.utility call s t r.isNone) → body.run ⟨s, handed⟩ = result t handed' r →
      (hooks.processUtility call body).run ⟨s, handed⟩ =
        result t (handed' ++ (event (.utility call s t r.isNone)).toList) r
  executorEnd : ∀ {queryDesc} {close : Computation σ ε Unit} {t handed},
    named (.query queryDesc t) → (hooks.executorEnd queryDesc close).run ⟨t, handed⟩ =
      close.run ⟨t, handed ++ (event (.query queryDesc t)).toList⟩

theorem HookTable.standard_handsOver : (HookTable.standard : HookTable σ ε).HandsOver
    (fun _ => True) fun _ => none where
  clientAuth h := by simpa [standard] using h
  clientAuthFailed h := h
  processUtility _ h := by simpa [standard] using h
  executorEnd _ := by simp [standard]

/-- The event that the extension hands over for what has ended: whether a statement is audited is
decided when it begins. -/
def Backend.event (b : Backend σ) : Ended σ → Option CString
  | .authentication port ok t => if (b.settings t).enabled then b.authEvent port ok t else none
  | .utility call s t success =>
    if (b.settings s).enabled then b.utilityEvent call success t else none
  | .query queryDesc t => if b.emitsQueries t then b.executorEvent queryDesc t else none

/-- Where the extension looks up the user, the user has a role. -/
def Backend.Named (b : Backend σ) (noUser : σ → Option ε) : Ended σ → Prop
  | .authentication .. => True
  | .utility call s t _ =>
    (b.settings s).enabled = true → call.isTagged = true → noUser t = none
  | .query queryDesc t => b.emitsQueries t = true → hasText queryDesc = true → noUser t = none

section

variable {noUser : σ → Option ε} {handed : List CString}

theorem run_lookUp (s : Audited σ) : (lookUp noUser).run s =
    match noUser s.server with
    | some error => .error error s
    | none => .ok () s := by
  simp only [lookUp, EStateM.run_bind, EStateM.run_get]
  cases noUser s.server <;> rfl

theorem run_emitUtility {call : UtilityCall} {success : Bool}
    (hnamed : call.isTagged = true → noUser t = none) :
    (emitUtility b noUser call success).run ⟨t, handed⟩ =
      .ok () ⟨t, handed ++ (b.utilityEvent call success t).toList⟩ := by
  cases htagged : call.isTagged <;>
    simp [emitUtility, lookUpUtility, htagged, run_lookUp, hnamed]

theorem run_emitQuery {queryDesc : Option QueryDesc}
    (hnamed : hasText queryDesc = true → noUser t = none) :
    (emitQuery b noUser queryDesc).run ⟨t, handed⟩ =
      .ok () ⟨t, handed ++ (b.executorEvent queryDesc t).toList⟩ := by
  cases htext : hasText queryDesc <;> simp [emitQuery, lookUpQuery, htext, run_lookUp, hnamed]

end

/-- The hooks of the extension hand over the event of what has ended, where the user has a role. -/
theorem HookTable.vibeOver_handsOver (b : Backend σ) (noUser : σ → Option ε) :
    (HookTable.vibeOver b noUser).HandsOver (b.Named noUser) b.event where
  clientAuth {port ok prev s t handed handed'} h := by
    simp only [vibeOver, vibeClientAuthHook, EStateM.run_bind, EStateM.run_get, h]
    cases henabled : (b.settings t).enabled <;> simp [Backend.event, henabled]
  clientAuthFailed {port ok prev s t handed handed' error} h := by
    simp [vibeOver, vibeClientAuthHook, h]
  processUtility {call body s t handed handed' r} hnamed h := by
    cases r with
    | none =>
      have hok : body.run ⟨s, handed⟩ = .ok () ⟨t, handed'⟩ := h
      simp only [vibeOver, vibeProcessUtilityHook, EStateM.run_bind, EStateM.run_get, run_tryCatch,
        hok]
      cases henabled : (b.settings s).enabled with
      | false => simp [Backend.event, henabled, result]
      | true => simp [Backend.event, henabled, result, run_emitUtility (hnamed henabled)]
    | some error =>
      have herror : body.run ⟨s, handed⟩ = .error error ⟨t, handed'⟩ := h
      simp only [vibeOver, vibeProcessUtilityHook, EStateM.run_bind, EStateM.run_get, run_tryCatch,
        herror]
      cases henabled : (b.settings s).enabled with
      | false => simp [Backend.event, henabled, result]
      | true => simp [Backend.event, henabled, result, run_emitUtility (hnamed henabled)]
  executorEnd {queryDesc close t handed} hnamed := by
    simp only [vibeOver, vibeExecutorEndHook, EStateM.run_bind, EStateM.run_get]
    cases hemits : b.emitsQueries t with
    | false => simp [Backend.event, hemits]
    | true => simp [Backend.event, hemits, run_emitQuery (hnamed hemits)]

theorem Backend.named_of_roles (b : Backend σ) (e : Ended σ) :
    b.Named (fun _ => (none : Option ε)) e := by
  cases e <;> simp [Backend.Named]

/-- Performing the work does what it means, whatever is handed over. -/
theorem Exec.perform_eq {hooks : HookTable σ ε} {named : Ended σ → Prop}
    {event : Ended σ → Option CString} (hhooks : hooks.HandsOver named event)
    (h : Exec b w s t r trail) (hnamed : ∀ e ∈ trail, named e) (handed : List CString) :
    (w.perform b hooks).run ⟨s, handed⟩ = result t (handed ++ trail.filterMap event) r := by
  induction h generalizing handed with
  | done s => simp [Work.perform, result]
  | act h => simp [Work.perform, h, result]
  | raise h => simp [Work.perform, h, result]
  | seq _ _ ih ih' =>
    rw [List.forall_mem_append] at hnamed
    rw [Work.perform, EStateM.run_bind, ih hnamed.1, List.filterMap_append, ← List.append_assoc]
    exact ih' hnamed.2 _
  | seqFailed _ ih =>
    rw [Work.perform, EStateM.run_bind, ih hnamed]
    rfl
  | choose _ ih =>
    rw [Work.perform]
    exact ih hnamed handed
  | attempt _ ih =>
    simp only [Work.perform, EStateM.run_bind, EStateM.run_get, run_tryCatch, ih hnamed]
    rfl
  | handle _ _ ih ih' =>
    rw [List.forall_mem_append] at hnamed
    simp only [Work.perform, EStateM.run_bind, EStateM.run_get, run_tryCatch, ih hnamed.1, result]
    rw [List.filterMap_append, ← List.append_assoc]
    exact ih' hnamed.2 _
  | authentication _ ih =>
    rw [List.forall_mem_append] at hnamed
    rw [Work.perform, hhooks.clientAuth (ih hnamed.1 handed)]
    simp [result, List.filterMap_eq_flatMap_toList]
  | authenticationFailed _ ih =>
    rw [Work.perform]
    exact hhooks.clientAuthFailed (ih hnamed handed)
  | utility _ ih =>
    rw [List.forall_mem_append, List.forall_mem_singleton] at hnamed
    rw [Work.perform, hhooks.processUtility hnamed.2 (ih hnamed.1 handed)]
    simp [List.filterMap_eq_flatMap_toList]
  | query _ _ ih ih' =>
    rw [List.forall_mem_append, List.forall_mem_cons] at hnamed
    rw [Work.perform, EStateM.run_bind, ih hnamed.1]
    change (hooks.executorEnd _ _).run _ = _
    rw [hhooks.executorEnd hnamed.2.1, ih' hnamed.2.2]
    simp [List.filterMap_eq_flatMap_toList]
  | queryFailed _ ih =>
    rw [Work.perform, EStateM.run_bind, ih hnamed]
    rfl

/-- With the hooks, where every user has a role. -/
theorem Exec.perform_vibe (h : Exec b w s t r trail) (handed : List CString) :
    (w.perform b (.vibe b)).run ⟨s, handed⟩ = result t (handed ++ trail.filterMap b.event) r :=
  h.perform_eq (HookTable.vibeOver_handsOver b _) (fun e _ => b.named_of_roles e) handed

/-! ## The effect on the server -/

/-- What a computation does to the server, without the datagrams. -/
def serverResult : EStateM.Result ε (Audited σ) Unit → σ × Option ε
  | .ok _ t => (t.server, none)
  | .error error t => (t.server, some error)

theorem serverResult_result (t : σ) (handed : List CString) (r : Option ε) :
    serverResult (result t handed r) = (t, r) := by
  cases r <;> rfl

/-- The computations do the same to the server, whatever has been handed over. -/
def SameEffect (c c' : Computation σ ε Unit) : Prop :=
  ∀ s handed handed', serverResult (c.run ⟨s, handed⟩) = serverResult (c'.run ⟨s, handed'⟩)

namespace SameEffect

variable {c c' d d' : Computation σ ε Unit}

/-- Either both computations succeed or both raise one error, in one state of the server. -/
theorem cases (h : SameEffect c c') (s : σ) (handed handed' : List CString) :
    (∃ t h₁ h₂, c.run ⟨s, handed⟩ = .ok () ⟨t, h₁⟩ ∧ c'.run ⟨s, handed'⟩ = .ok () ⟨t, h₂⟩) ∨
      ∃ error t h₁ h₂, c.run ⟨s, handed⟩ = .error error ⟨t, h₁⟩ ∧
        c'.run ⟨s, handed'⟩ = .error error ⟨t, h₂⟩ := by
  have hsame := h s handed handed'
  rcases hc : c.run ⟨s, handed⟩ with ⟨_, t, h₁⟩ | ⟨error, t, h₁⟩ <;>
    rcases hc' : c'.run ⟨s, handed'⟩ with ⟨_, t', h₂⟩ | ⟨error', t', h₂⟩ <;>
    simp only [hc, hc', serverResult, Prod.mk.injEq, reduceCtorEq, and_false, and_true,
      Option.some.injEq] at hsame
  · subst hsame
    exact .inl ⟨t, h₁, h₂, rfl, rfl⟩
  · obtain ⟨rfl, rfl⟩ := hsame
    exact .inr ⟨error, t, h₁, h₂, rfl, rfl⟩

theorem pure : SameEffect (pure () : Computation σ ε Unit) (pure ()) := fun _ _ _ => rfl

theorem throw (error : ε) : SameEffect (throw error : Computation σ ε Unit) (throw error) :=
  fun _ _ _ => rfl

theorem lookUp (noUser : σ → Option ε) : SameEffect (lookUp noUser) (lookUp noUser) := by
  intro s handed handed'
  rw [run_lookUp, run_lookUp]
  cases noUser s <;> rfl

/-- Handing an event over afterwards has no effect. -/
theorem handOver (hc : SameEffect c c') (event : σ → Option CString) :
    SameEffect (c >>= fun _ => do Extension.handOver (event (← get).server)) c' := by
  intro s handed handed'
  rw [EStateM.run_bind]
  rcases hc.cases s handed handed' with ⟨t, _, _, hc, hc'⟩ | ⟨error, t, _, _, hc, hc'⟩
  · rw [hc, hc']
    rfl
  · rw [hc, hc']
    rfl

theorem seq (hc : SameEffect c c') (hd : SameEffect d d') :
    SameEffect (c >>= fun _ => d) (c' >>= fun _ => d') := by
  intro s handed handed'
  rw [EStateM.run_bind, EStateM.run_bind]
  rcases hc.cases s handed handed' with ⟨t, _, _, hc, hc'⟩ | ⟨error, t, _, _, hc, hc'⟩
  · rw [hc, hc']
    exact hd t _ _
  · rw [hc, hc']
    rfl

theorem tryCatch {handler handler' : ε → Computation σ ε Unit} (hc : SameEffect c c')
    (hhandler : ∀ error, SameEffect (handler error) (handler' error)) :
    SameEffect (tryCatch c handler) (tryCatch c' handler') := by
  intro s handed handed'
  rw [run_tryCatch, run_tryCatch]
  rcases hc.cases s handed handed' with ⟨t, _, _, hc, hc'⟩ | ⟨error, t, _, _, hc, hc'⟩
  · rw [hc, hc']
    rfl
  · rw [hc, hc']
    exact hhandler error t _ _

end SameEffect

/-- Hooks with the same effect. -/
structure HookTable.SameEffect (hooks hooks' : HookTable σ ε) : Prop where
  clientAuth : ∀ port ok {prev prev' : Computation σ ε Unit}, Extension.SameEffect prev prev' →
    Extension.SameEffect (hooks.clientAuth port ok prev) (hooks'.clientAuth port ok prev')
  processUtility : ∀ call {body body' : Computation σ ε Unit}, Extension.SameEffect body body' →
    Extension.SameEffect (hooks.processUtility call body) (hooks'.processUtility call body')
  executorEnd : ∀ queryDesc {close close' : Computation σ ε Unit},
    Extension.SameEffect close close' →
    Extension.SameEffect (hooks.executorEnd queryDesc close) (hooks'.executorEnd queryDesc close')

theorem SameEffect.perform {hooks hooks' : HookTable σ ε} (hhooks : hooks.SameEffect hooks')
    (b : Backend σ) (w : Work σ ε) : SameEffect (w.perform b hooks) (w.perform b hooks') := by
  induction w with
  | done => exact .pure
  | act f =>
    intro s handed handed'
    cases h : f s <;> simp [Work.perform, h, serverResult]
  | seq first second ih ih' => exact ih.seq ih'
  | choose f ih => exact fun s handed handed' => ih s s handed handed'
  | attempt body handler ih ih' =>
    intro s handed handed'
    refine SameEffect.tryCatch ih (fun error => ?_) s handed handed'
    exact SameEffect.seq (fun _ _ _ => rfl) (ih' error)
  | authentication port ok prev ih => exact hhooks.clientAuth port ok ih
  | utility call body ih => exact hhooks.processUtility call ih
  | query queryDesc body close ih ih' => exact ih.seq (hhooks.executorEnd queryDesc ih')

theorem sameEffect_emitUtility (b : Backend σ) (noUser : σ → Option ε) (call : UtilityCall)
    (success : Bool) :
    SameEffect (emitUtility b noUser call success) (lookUpUtility noUser call) := by
  have hsame : SameEffect (lookUpUtility noUser call) (lookUpUtility noUser call) := by
    unfold lookUpUtility
    cases call.isTagged
    · exact .pure
    · exact .lookUp noUser
  exact hsame.handOver (b.utilityEvent call success)

theorem sameEffect_emitQuery (b : Backend σ) (noUser : σ → Option ε)
    (queryDesc : Option QueryDesc) :
    SameEffect (emitQuery b noUser queryDesc) (lookUpQuery noUser queryDesc) := by
  have hsame : SameEffect (lookUpQuery noUser queryDesc) (lookUpQuery noUser queryDesc) := by
    unfold lookUpQuery
    cases hasText queryDesc
    · exact .pure
    · exact .lookUp noUser
  exact hsame.handOver (b.executorEvent queryDesc)

/-- Without its events the extension only looks up the user. -/
theorem HookTable.vibeOver_sameEffect (b : Backend σ) (noUser : σ → Option ε) :
    (HookTable.vibeOver b noUser).SameEffect (.lookups b noUser) where
  clientAuth port ok prev prev' h := by
    intro s handed handed'
    simp only [vibeOver, vibeClientAuthHook, lookups, EStateM.run_bind]
    rcases h.cases s handed handed' with ⟨t, _, _, hc, hc'⟩ | ⟨error, t, _, _, hc, hc'⟩
    · rw [hc, hc']
      cases henabled : (b.settings t).enabled <;> simp [henabled, serverResult]
    · rw [hc, hc']
      rfl
  processUtility call body body' h := by
    intro s handed handed'
    simp only [vibeOver, vibeProcessUtilityHook, lookups, EStateM.run_bind, EStateM.run_get]
    cases (b.settings s).enabled with
    | false => exact (h.tryCatch fun error => .throw error).seq .pure s handed handed'
    | true =>
      have hcaught := h.tryCatch fun error =>
        (sameEffect_emitUtility b noUser call false).seq (.throw error)
      exact hcaught.seq (sameEffect_emitUtility b noUser call true) s handed handed'
  executorEnd queryDesc close close' h := by
    intro s handed handed'
    simp only [vibeOver, vibeExecutorEndHook, lookups, EStateM.run_bind, EStateM.run_get]
    cases b.emitsQueries s with
    | false => exact h s handed handed'
    | true => exact (sameEffect_emitQuery b noUser queryDesc).seq h s handed handed'

/-- What the extension does to the server is to look up the user where an audited statement ends:
handing events over has no effect, and no error is swallowed. Where the user has a role whenever
one ends, the server does to its state what it does without the extension, and ends with the same
error if there is one. -/
theorem hooks_transparent (b : Backend σ) (noUser : σ → Option ε) (w : Work σ ε) (s : σ)
    (handed : List CString) :
    serverResult ((w.perform b (.vibeOver b noUser)).run ⟨s, handed⟩) =
      serverResult ((w.perform b (.lookups b noUser)).run ⟨s, handed⟩) ∧
    ((∀ t r trail, Exec b w s t r trail → ∀ e ∈ trail, b.Named noUser e) →
      serverResult ((w.perform b (.vibeOver b noUser)).run ⟨s, handed⟩) =
        serverResult ((w.perform b .standard).run ⟨s, handed⟩)) := by
  refine ⟨SameEffect.perform (HookTable.vibeOver_sameEffect b noUser) b w s handed handed,
    fun hnamed => ?_⟩
  obtain ⟨t, r, trail, h⟩ := Exec.exists b w s
  rw [h.perform_eq (HookTable.vibeOver_handsOver b noUser) (hnamed t r trail h),
    h.perform_eq HookTable.standard_handsOver (fun _ _ => trivial), serverResult_result,
    serverResult_result]

def roleBackend : Backend Bool where
  settings _ := ⟨true, some (bytes "emit")⟩
  now _ := ⟨1767268800, 500000, by decide⟩
  session _ := ⟨bytes "alice", bytes "vibesql", 4711, none⟩
  superuser _ := true
  rollback before _ := before

def noRole (role : Bool) : Option Unit := if role then none else some ()

def createAudit : Work Bool Unit :=
  .utility ⟨some (.createStmt (some ⟨none, bytes "audit"⟩)), some (bytes "CREATE TABLE audit ()")⟩
    .done

theorem hooks_transparent_created :
    serverResult ((createAudit.perform roleBackend (.vibeOver roleBackend noRole)).run
        ⟨true, []⟩) =
      serverResult ((createAudit.perform roleBackend .standard).run ⟨true, []⟩) := by
  refine (hooks_transparent roleBackend noRole createAudit true []).2 ?_
  intro t r trail h e he
  cases h with
  | utility hbody =>
    cases hbody with
    | done =>
      obtain rfl := List.mem_singleton.mp he
      exact fun _ _ => rfl

/-- Without the role the statement ends with an error that it does not have without the hooks. -/
example :
    serverResult ((createAudit.perform roleBackend (.vibeOver roleBackend noRole)).run
        ⟨false, []⟩) = (false, some ()) ∧
      serverResult ((createAudit.perform roleBackend .standard).run ⟨false, []⟩) =
        (false, none) :=
  ⟨rfl, rfl⟩

theorem result_injective {t t' : σ} {handed handed' : List CString} {r r' : Option ε}
    (h : result t handed r = result t' handed' r') : t = t' ∧ handed = handed' ∧ r = r' := by
  cases r <;> cases r' <;> simp_all [result]

/-- The datagrams are the events of what has ended, in the order of the ends: an audited statement
leaves one event, with its own outcome, also if it fails or is rolled back later, and a query that
fails leaves none. -/
theorem handed_iff_ended (b : Backend σ) (w : Work σ ε) (s t : σ) (r : Option ε)
    (handed : List CString) :
    (w.perform b (.vibe b)).run ⟨s, []⟩ = result t handed r ↔
      ∃ trail, Exec b w s t r trail ∧ handed = trail.filterMap b.event := by
  obtain ⟨t', r', trail, h⟩ := Exec.exists b w s
  have hrun := h.perform_vibe []
  constructor
  · intro heq
    obtain ⟨rfl, rfl, rfl⟩ := result_injective (hrun.symm.trans heq)
    exact ⟨trail, h, rfl⟩
  · rintro ⟨trail', h', rfl⟩
    exact h'.perform_vibe []

end VibeAudit.Extension

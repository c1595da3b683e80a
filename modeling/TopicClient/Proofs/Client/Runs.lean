import TopicClient.Proofs.Client.Talk

/-!
# The registry of a client over its whole life

`Leads` are the runs of a client: registrations, calls and deliveries one after the other, each with
the registrations it tries (`Act.attempts`). Whatever a run does, the registry represents the
registrations that succeeded and the log warns once of every unreadable pattern among them:
`faithful_of_leads`.
-/

namespace TopicClient.Client

open Delivery (Kept Tries left)

def fetched? (c : Client) : Option (List Event) :=
  match outcomeOf (c.exchange Path.fetch none).1 with
  | .ok accepted => (Event.parseBatch accepted.body).toOption
  | .error _ => none

def Operation.attempts (as : Ledger Handler) (c : Client) : Operation → Ledger Handler
  | subscribe key _ handler => [(key, handler)]
  | fetch =>
    match c.fetched? with
    | some batch => Delivery.attempts as batch
    | none => []
  | _ => []

inductive Act where
  /-- A handler is registered straight at the registry. -/
  | register (key : String) (handler : Handler)
  /-- A handler is put in place, and the server never hears of it. -/
  | handle (key : String) (authLevel : UInt8) (handler : Handler)
  | call (operation : Operation)
  | send (path : String) (payload : Option Payload) (onSuccess onFailure : Bool)
  /-- A batch is delivered that was not fetched. -/
  | dispatch (batch : List Event)

namespace Act

def after (c : Client) : Act → Client
  | register key handler => { c with delivery := left (c.delivery.register key handler) }
  | handle key authLevel handler => ((Client.register key authLevel handler).run c).2
  | call operation => (operation.run.run c).2
  | send path payload onSuccess onFailure =>
    ((Client.send path payload onSuccess onFailure).run c).2
  | dispatch batch => { c with delivery := left ((c.delivery.dispatch batch).map Prod.fst) }

def attempts (as : Ledger Handler) (c : Client) : Act → Ledger Handler
  | register key handler => [(key, handler)]
  | handle key _ handler => [(key, handler)]
  | call operation => operation.attempts as c
  | send _ _ _ _ => []
  | dispatch batch => Delivery.attempts as batch

end Act

/-- The runs from a client on, with all registrations that have been tried. Between two steps other
parts of the program may log something, and the entries of the registry may change their places. -/
inductive Leads (as : Ledger Handler) (c : Client) : Ledger Handler → Client → Prop
  | refl : Leads as c as c
  | act {bs : Ledger Handler} {c' : Client} (h : Leads as c bs c') (a : Act) :
      Leads as c (bs ++ a.attempts bs c') (a.after c')
  | logged {bs : Ledger Handler} {c' : Client} (h : Leads as c bs c') {r : Log.Record}
      (hr : r.source ≠ .events) : Leads as c bs ((Client.log r).run c').2
  | rehashed {bs : Ledger Handler} {c' : Client} (h : Leads as c bs c')
      {registry : Registry Handler} (hp : registry.entries.Perm c'.registry.entries) :
      Leads as c bs { c' with delivery := { c'.delivery with registry } }

structure Faithful (as : Ledger Handler) (c : Client) : Prop where
  represents : Registry.Represents as.successful c.registry
  /-- An entry stays as it is, but for the handlers that later registrations add. -/
  stays : ∀ bs c', Leads as c bs c' → ∃ cs, bs = as ++ cs ∧ ∀ e ∈ c.registry.entries,
    { e with handlers := e.handlers ++ cs.successful.handlers e.key } ∈ c'.registry.entries
  /-- A registration that fails leaves everything as it was. -/
  refuses : ∀ key, Glob.compile key = .tooDeep → ∀ handler authLevel,
    c.delivery.register key handler = .error c.delivery ∧
      (register key authLevel handler).run c = (false, c) ∧
      (subscribe key authLevel handler).run c = (.error .unusableKey, c)
  /-- Any other registration succeeds. -/
  registers : ∀ key, Glob.compile key ≠ .tooDeep → ∀ handler authLevel,
    (∃ d, c.delivery.register key handler = .ok d) ∧
      ((register key authLevel handler).run c).1 = true
  warns : ∀ key, Glob.Unreadable key → (∃ handler, (key, handler) ∈ as) →
    ∃ cause, Glob.parse key.toList = .error cause ∧
      c.delivery.warnings key = [Registry.unreadableKey key cause]
  warns_never : ∀ key, ¬ (Glob.Unreadable key ∧ ∃ handler, (key, handler) ∈ as) →
    c.delivery.warnings key = []

/-- A call neither registers a handler nor warns of a key. -/
def Keeps {α : Type} (call : Action α) : Prop :=
  ∀ as c, Kept as c.delivery → Kept as (call.run c).2.delivery

theorem Talks.keeps {α : Type} {call : Action α} (h : Talks call) : Keeps call :=
  fun _ c hc => (h c).kept hc

theorem Keeps.kept {α : Type} {as : Ledger Handler} {c : Client} {call : Action α}
    (h : Keeps call) (hc : Kept as c.delivery) : Kept (as ++ []) (call.run c).2.delivery := by
  rw [List.append_nil]
  exact h as c hc

section Steps

variable {as : Ledger Handler} {c : Client}

theorem kept_left_subscribe (hc : Kept as c.delivery) (key : String) (authLevel : UInt8)
    (handler : Handler) :
    Kept (as ++ [(key, handler)]) (left (c.delivery.subscribe key authLevel handler)) := by
  have hkept := (hc.subscribe key authLevel handler).kept
  rwa [Ledger.tried_singleton] at hkept

theorem kept_subscribe (hc : Kept as c.delivery) (key : String) (authLevel : UInt8)
    (handler : Handler) :
    Kept (as ++ [(key, handler)]) ((subscribe key authLevel handler).run c).2.delivery :=
  (talked_subscribe c key authLevel handler).kept (kept_left_subscribe hc key authLevel handler)

theorem kept_deliver (hc : Kept as c.delivery) (batch : List Event) :
    Kept (as ++ Delivery.attempts as batch) ((deliver batch).run c).2.delivery := by
  have hleft := Delivery.kept_dispatch hc batch
  rw [run_deliver]
  cases hd : c.delivery.dispatch batch with
  | ok p =>
    rw [hd] at hleft
    exact hleft.log (Delivery.not_warnsOf_of_message (by simp [record]))
  | error d =>
    rw [hd] at hleft
    exact hleft

theorem run_fetch (c : Client) :
    fetch.run c =
      match outcomeOf (c.exchange Path.fetch none).1 with
      | .error e => (.error (.error e), ((Client.log (record .warn .events
          "Failed to fetch events" [("error", .plain e.message)])).run
            (c.afterExchange Path.fetch none)).2)
      | .ok accepted =>
        match Event.parseBatch accepted.body with
        | .error e =>
          (.error (.error (.serialization (.reading e))), c.afterExchange Path.fetch none)
        | .ok batch => (deliver batch).run (c.afterExchange Path.fetch none) := by
  rw [fetch, StateT.run_bind, run_postBody]
  cases outcomeOf (c.exchange Path.fetch none).1 with
  | error e => rfl
  | ok accepted =>
    simp only [bind]
    cases Event.parseBatch accepted.body with
    | error e => rfl
    | ok batch => rfl

theorem kept_fetch (hc : Kept as c.delivery) :
    Kept (as ++ Operation.fetch.attempts as c) (fetch.run c).2.delivery := by
  have hposted : Kept as (c.afterExchange Path.fetch none).delivery :=
    (talked_afterExchange c Path.fetch none).kept hc
  rw [run_fetch, Operation.attempts, fetched?]
  cases outcomeOf (c.exchange Path.fetch none).1 with
  | error e =>
    rw [List.append_nil]
    exact hposted.log (Delivery.not_warnsOf_of_message (by simp [record]))
  | ok accepted =>
    simp only
    cases Event.parseBatch accepted.body with
    | error e => simpa [Except.toOption] using hposted
    | ok batch => exact kept_deliver hposted batch

theorem kept_run (hc : Kept as c.delivery) (op : Operation) :
    Kept (as ++ op.attempts as c) (op.run.run c).2.delivery := by
  have htalk : ∀ {op : Operation}, op.IsTalk → Kept (as ++ []) (op.run.run c).2.delivery :=
    fun h => h.talks.keeps.kept hc
  cases op with
  | subscribe key authLevel handler => exact kept_subscribe hc key authLevel handler
  | fetch => exact kept_fetch hc
  | _ => exact htalk trivial

/-- A step keeps what a client holds, with the registrations it tries. -/
theorem kept_after (hc : Kept as c.delivery) (a : Act) :
    Kept (as ++ a.attempts as c) (a.after c).delivery := by
  cases a with
  | register key handler =>
    have hkept := (hc.register key handler).kept
    rwa [Ledger.tried_singleton] at hkept
  | handle key authLevel handler =>
    have hleft := kept_left_subscribe hc key authLevel handler
    rw [Act.after, run_register]
    cases hd : c.delivery.subscribe key authLevel handler with
    | ok d =>
      rw [hd] at hleft
      exact hleft
    | error d =>
      rw [hd] at hleft
      exact hleft
  | call operation => exact kept_run hc operation
  | send path payload onSuccess onFailure =>
    exact (talks_send path payload onSuccess onFailure).keeps.kept hc
  | dispatch batch => exact Delivery.kept_dispatch hc batch

end Steps

section Runs

variable {as bs : Ledger Handler} {c c' : Client}

/-- A run adds to the registrations tried, and the client holds what they come to. -/
theorem Leads.kept (h : Leads as c bs c') (hc : Kept as c.delivery) :
    (∃ cs, bs = as ++ cs) ∧ Kept bs c'.delivery := by
  induction h with
  | refl => exact ⟨⟨[], (List.append_nil as).symm⟩, hc⟩
  | @act bs c' _ a ih =>
    obtain ⟨⟨cs, rfl⟩, hkept⟩ := ih
    exact ⟨⟨_, List.append_assoc _ _ _⟩, kept_after hkept a⟩
  | logged _ hr ih => exact ⟨ih.1, ih.2.log (Delivery.not_warnsOf_of_source hr)⟩
  | rehashed _ hp ih => exact ⟨ih.1, ih.2.built.rehashed hp, ih.2.warnings_eq⟩

/-- Only a key that can be used is an unreadable pattern, so it is registered when it is tried. -/
theorem mem_keys_successful_iff {key : String} (hk : Glob.Unreadable key) :
    key ∈ as.successful.keys ↔ ∃ handler, (key, handler) ∈ as := by
  obtain ⟨hglob, cause, hparse⟩ := hk
  have hinvalid : Glob.compile key = .invalid cause :=
    Glob.compile_eq_invalid_iff.2 ⟨hglob, hparse⟩
  rw [Ledger.mem_keys_iff]
  simp [Ledger.successful, hinvalid, Glob.Compiled.isUsable]

theorem faithful_of_kept (hc : Kept as c.delivery) : Faithful as c where
  represents := hc.built.represents
  stays bs c' h := by
    obtain ⟨⟨cs, rfl⟩, hkept⟩ := h.kept hc
    refine ⟨cs, rfl, fun e he => ?_⟩
    have hbuilt := hkept.built
    rw [Ledger.successful_append] at hbuilt
    exact hc.built.mem_entries_append hbuilt he
  refuses key hk handler authLevel := by
    have hregister : c.delivery.register key handler = .error c.delivery :=
      Delivery.register_eq_error hc.built hk handler
    have hsubscribe : c.delivery.subscribe key authLevel handler = .error c.delivery := by
      rw [Delivery.subscribe, hregister]
      rfl
    rw [run_register, run_subscribe, hsubscribe]
    exact ⟨hregister, rfl, rfl⟩
  registers key hk handler authLevel := by
    obtain ⟨registry, _, heq⟩ := Delivery.exists_register_eq_ok c.delivery hk handler
    refine ⟨⟨_, heq⟩, ?_⟩
    rw [run_register, Delivery.subscribe, heq]
    rfl
  warns key hk hmem := by
    obtain ⟨hglob, cause, hparse⟩ := hk
    refine ⟨cause, hparse, ?_⟩
    rw [hc.warnings_eq, Ledger.warnings, Glob.compile_eq_invalid_iff.2 ⟨hglob, hparse⟩]
    exact if_pos ((mem_keys_successful_iff ⟨hglob, cause, hparse⟩).2 hmem)
  warns_never key hk := by
    rw [hc.warnings_eq, Ledger.warnings]
    cases hcompile : Glob.compile key with
    | invalid cause =>
      have hunreadable : Glob.Unreadable key :=
        ⟨(Glob.compile_eq_invalid_iff.1 hcompile).1, cause,
          (Glob.compile_eq_invalid_iff.1 hcompile).2⟩
      exact if_neg fun hmem => hk ⟨hunreadable, (mem_keys_successful_iff hunreadable).1 hmem⟩
    | _ => rfl

/-- Over the whole life of a client, whatever it does and whatever the server answers, its registry
represents the registrations that succeeded, those that failed have changed nothing, and the log
warns once of each unreadable pattern that was registered and of no other key. -/
theorem faithful_of_leads {config : Config} {agent : Http.Agent} {c₀ : Client}
    (hstart : connect config agent = .ok c₀) (h : Leads [] c₀ as c) : Faithful as c := by
  have hdelivery : c₀.delivery = { registry := .empty } := by
    unfold connect at hstart
    cases hbase : baseUrl config.url with
    | error e =>
      rw [hbase] at hstart
      cases hstart
    | ok base =>
      rw [hbase] at hstart
      cases hstart
      rfl
  have hempty : Kept [] c₀.delivery := by
    rw [hdelivery]
    refine ⟨.empty, fun key => ?_⟩
    exact (Ledger.warnings_of_not_mem (List.not_mem_nil)).symm
  exact faithful_of_kept (h.kept hempty).2

end Runs

theorem compile_ofList_eq_tooDeep {characters : List Char}
    (hglob : (characters.any fun ch => ch = '*' || ch = '?' || ch = '[') = true)
    (hdeep : ((Glob.parse characters).toOption.any fun tokens =>
      Glob.depthLimit < Glob.patternDepth tokens) = true) :
    Glob.compile (String.ofList characters) = .tooDeep := by
  rw [Glob.compile, Glob.isGlob, String.toList_ofList, if_pos hglob]
  cases hparse : Glob.parse characters with
  | error cause =>
    rw [hparse] at hdeep
    cases hdeep
  | ok tokens =>
    rw [hparse] at hdeep
    have hdepth : Glob.depthLimit < Glob.patternDepth tokens := of_decide_eq_true hdeep
    exact if_neg (Nat.not_le.2 hdepth)

def nestedCharacters : List Char :=
  '*' :: (List.replicate 125 ['\x7b', 'a']).flatten ++ 'a' :: List.replicate 125 '\x7d'

def nestedKey : String := String.ofList nestedCharacters

theorem compile_nestedKey : Glob.compile nestedKey = .tooDeep :=
  compile_ofList_eq_tooDeep (by decide +kernel) (by decide +kernel)

/-- When it is called, its second registration fails, and its third is not tried. -/
def registersNested : Handler :=
  .recording none [.register "a?" .logging, .register nestedKey .logging, .register "z" .logging]

def nestedAttempts : Ledger Handler :=
  [("b", registersNested), ("[a", .logging), (nestedKey, .logging), ("[a", .logging),
    ("a?", .logging), (nestedKey, .logging)]

theorem isUsable_nestedKey : (Glob.compile nestedKey).isUsable = false := by
  rw [compile_nestedKey]
  rfl

theorem attempts_registersNested :
    Delivery.attempts [("b", registersNested), ("[a", .logging), (nestedKey, .logging),
      ("[a", .logging)] [{ topic := "b" }] = [("a?", .logging), (nestedKey, .logging)] := by
  have hb : (Glob.compile "b").isUsable = true := by decide +kernel
  have ha : (Glob.compile "[a").isUsable = true := by decide +kernel
  have hq : (Glob.compile "a?").isUsable = true := by decide +kernel
  have hsuccessful : Ledger.successful [("b", registersNested), ("[a", .logging),
      (nestedKey, .logging), ("[a", .logging)] =
      [("b", registersNested), ("[a", .logging), ("[a", .logging)] := by
    simp [Ledger.successful, hb, ha, isUsable_nestedKey]
  rw [Delivery.attempts, hsuccessful]
  change Ledger.tried [("a?", Handler.logging), (nestedKey, .logging), ("z", .logging)] = _
  simp [Ledger.tried, hq, isUsable_nestedKey]

theorem exists_leads_nestedAttempts (c₀ : Client) : ∃ c, Leads [] c₀ nestedAttempts c := by
  obtain ⟨c₁, h₁⟩ : ∃ c₁, Leads [] c₀ [("b", registersNested)] c₁ :=
    ⟨_, Leads.refl.act (.register "b" registersNested)⟩
  obtain ⟨c₂, h₂⟩ : ∃ c₂, Leads [] c₀ [("b", registersNested), ("[a", .logging)] c₂ :=
    ⟨_, h₁.act (.handle "[a" 0 .logging)⟩
  obtain ⟨c₃, h₃⟩ : ∃ c₃, Leads [] c₀
      [("b", registersNested), ("[a", .logging), (nestedKey, .logging)] c₃ :=
    ⟨_, h₂.act (.register nestedKey .logging)⟩
  obtain ⟨c₄, h₄⟩ : ∃ c₄, Leads [] c₀
      [("b", registersNested), ("[a", .logging), (nestedKey, .logging), ("[a", .logging)] c₄ :=
    ⟨_, h₃.act (.call (.subscribe "[a" 3 .logging))⟩
  have h₅ := h₄.act (.dispatch [{ topic := "b" }])
  rw [Act.attempts, attempts_registersNested] at h₅
  exact ⟨_, h₅⟩

/-- Of the two failures, one at the client and one inside a handler, nothing is left, and a key that
is registered twice is warned of once. -/
theorem faithful_of_nestedAttempts :
    ∃ c₀ c, connect (.ofUrl "http://susi.test") { server := {} } = .ok c₀ ∧
      Leads [] c₀ nestedAttempts c ∧ c.registry.count "[a" = 2 ∧ c.registry.contains "a?" = true ∧
      c.registry.contains nestedKey = false ∧ (c.delivery.warnings "[a").length = 1 ∧
      c.delivery.warnings nestedKey = [] := by
  obtain ⟨c₀, hstart⟩ : ∃ c₀, connect (.ofUrl "http://susi.test") { server := {} } = .ok c₀ := by
    have hok : (connect (.ofUrl "http://susi.test") { server := {} }).toBool = true := by
      decide +kernel
    cases hconnect : connect (.ofUrl "http://susi.test") { server := {} } with
    | ok c₀ => exact ⟨c₀, rfl⟩
    | error e =>
      rw [hconnect] at hok
      cases hok
  obtain ⟨c, hrun⟩ := exists_leads_nestedAttempts c₀
  have hfaithful : Faithful nestedAttempts c := faithful_of_leads hstart hrun
  have hsuccessful : nestedAttempts.successful = [("b", registersNested), ("[a", .logging),
      ("[a", .logging), ("a?", .logging)] := by
    have hb : (Glob.compile "b").isUsable = true := by decide +kernel
    have ha : (Glob.compile "[a").isUsable = true := by decide +kernel
    have hq : (Glob.compile "a?").isUsable = true := by decide +kernel
    simp [Ledger.successful, nestedAttempts, hb, ha, hq, isUsable_nestedKey]
  have hwarned : ∃ cause, Glob.parse "[a".toList = .error cause ∧
      c.delivery.warnings "[a" = [Registry.unreadableKey "[a" cause] := by
    refine hfaithful.warns "[a" ⟨by decide +kernel, ?_⟩ ⟨.logging, by simp [nestedAttempts]⟩
    cases hparse : Glob.parse "[a".toList with
    | error cause => exact ⟨cause, rfl⟩
    | ok tokens =>
      have hfails : (Glob.parse "[a".toList).toBool = false := by decide +kernel
      rw [hparse] at hfails
      cases hfails
  obtain ⟨cause, _, hwarning⟩ := hwarned
  refine ⟨c₀, c, hstart, hrun, ?_, ?_, ?_, ?_, ?_⟩
  · rw [hfaithful.represents.count_eq, hsuccessful]
    decide +kernel
  · rw [hfaithful.represents.contains_iff, hsuccessful]
    exact ⟨.logging, by simp⟩
  · rw [Bool.eq_false_iff, ne_eq, hfaithful.represents.contains_iff]
    rintro ⟨h, hmem⟩
    have husable := (List.mem_filter.1 hmem).2
    rw [isUsable_nestedKey] at husable
    cases husable
  · rw [hwarning]
    rfl
  · apply hfaithful.warns_never
    rintro ⟨⟨hglob, cause, hparse⟩, _⟩
    have hinvalid := Glob.compile_eq_invalid_iff.2 ⟨hglob, hparse⟩
    rw [compile_nestedKey] at hinvalid
    cases hinvalid

end TopicClient.Client

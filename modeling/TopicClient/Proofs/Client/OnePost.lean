import TopicClient.Proofs.Client.Operation
import TopicClient.Proofs.Client.Posting

/-!
# When a call is one post

Every call of a client makes one post, or none if what it would send cannot be written or registered
(`Operation.posts?`). `OnePost` says that nothing else reaches the server, that the call succeeds
only if the server answers the post with the status 200, and that every other status comes back as
an error. An answer that leads elsewhere is followed, though: `onePost_iff_not_strays` says that a
call is one post exactly as long as its post is not answered in this way.
-/

namespace TopicClient.Client

open Http (Agent)

namespace Operation

def bodyOf? : Option Payload → Option (Option String)
  | none => some none
  | some (.ok v) => some (some v.render)
  | some (.error _) => none

/-- The path and the body of the post that a call makes, if it makes one. -/
def posts? (c : Client) : Operation → Option (String × Option String)
  | post path payload => (bodyOf? payload).map fun body => (path, body)
  | postLogged path payload => (bodyOf? payload).map fun body => (path, body)
  | login credentials => some (Path.login, some credentials.body)
  | logout => some (Path.logout, none)
  | keepAlive => some (Path.keepAlive, none)
  | info => some (Path.info, none)
  | session => some (Path.info, none)
  | publish key (.ok payload) =>
    some (Path.publish, some (Publication.body { key, payload }))
  | publish _ (.error _) => none
  | publishMessage message => some (Path.publish, some message.body)
  | subscribe key authLevel handler =>
    match c.delivery.subscribe key authLevel handler with
    | .ok _ => some (Path.subscribe, some (Subscription.body ⟨key, authLevel⟩))
    | .error _ => none
  | fetch => some (Path.fetch, none)

end Operation

def reply? (c : Client) (path : String) (body : Option String) : Option Http.Reply :=
  (Agent.target? (endpoint c.base path)).bind fun url =>
    (c.agent.send { method := .post, url, body }).1

structure OnePost (c : Client) (op : Operation) : Prop where
  requests : (op.run.run c).2.agent.received = c.agent.received ∨
    ∃ path body url cookies, op.posts? c = some (path, body) ∧
      Agent.target? (endpoint c.base path) = some url ∧
      (op.run.run c).2.agent.received =
        c.agent.received ++ [Http.Request.received { method := .post, url, body } cookies]
  success : (op.run.run c).1 = .ok () → ∃ path body response, op.posts? c = some (path, body) ∧
    c.reply? path body = some (.response response) ∧ response.status = 200
  rejection : ∀ path body response text, op.posts? c = some (path, body) →
    c.reply? path body = some (.response response) → response.status ≠ 200 →
    response.text = .ok text → (op.run.run c).1 = .error (.error (.status response.status text))

/-- The answer to the post of a call leads elsewhere: to the web, where it is followed, or not, and
then it is lost though all of its body has come. -/
def Strays (c : Client) (op : Operation) : Prop :=
  ∃ path body url response next, op.posts? c = some (path, body) ∧
    Agent.target? (endpoint c.base path) = some url ∧
    c.reply? path body = some (.response response) ∧ response.redirection? url = some next ∧
    (Http.isWebScheme next.scheme = true ∨ ∃ text, response.text = .ok text)

/-- A call comes to a post: it leaves the agent as the post does, and fails where the post does. -/
structure Posts {ε α : Type} (inj : ClientError → ε) (path : String) (body : Option String)
    (call : Action (Except ε α)) : Prop where
  agent_eq : ∀ c, (call.run c).2.agent = (c.exchange path body).2
  error_eq : ∀ c e, outcomeOf (c.exchange path body).1 = .error e → (call.run c).1 = .error (inj e)

section Calls

variable {ε δ α β : Type} {inj : ClientError → ε} {inj' : ClientError → δ} {path : String}
  {body : Option String}

theorem posts_postBody (path : String) (body : Option String) :
    Posts id path body (postBody path body) where
  agent_eq c := by
    rw [run_postBody]
    rfl
  error_eq c e he := by
    rw [run_postBody]
    exact he

/-- What is done after a post changes neither the agent nor an error. -/
theorem Posts.bind {call : Action (Except ε α)} (h : Posts inj path body call)
    {next : Except ε α → Action (Except δ β)} (hagent : ∀ o c, ((next o).run c).2.agent = c.agent)
    (herror : ∀ e c, ((next (.error (inj e))).run c).1 = .error (inj' e)) :
    Posts inj' path body (call >>= next) where
  agent_eq c := by
    have hrun : (call >>= next).run c = (next (call.run c).1).run (call.run c).2 := rfl
    rw [hrun, hagent, h.agent_eq]
  error_eq c e he := by
    have hrun : (call >>= next).run c = (next (call.run c).1).run (call.run c).2 := rfl
    rw [hrun, h.error_eq c e he]
    exact herror e _

theorem Posts.map {call : Action (Except ε α)} (h : Posts inj path body call) (f : α → β) :
    Posts inj path body (do return (← call).map f) :=
  h.bind (fun _ _ => rfl) fun _ _ => rfl

theorem Posts.settle {call : Action (Outcome α)} (h : Posts id path body call) :
    Posts Fault.error path body (Client.settle call) :=
  h.bind (fun _ _ => rfl) fun _ _ => rfl

theorem agent_logOutcome (path : String) (o : Outcome Accepted) (c : Client) :
    ((logOutcome path o).run c).2.agent = c.agent := by
  rcases o with e | accepted
  · cases e <;> rfl
  · rfl

theorem Posts.logged {call : Action (Outcome Accepted)} (h : Posts id path body call)
    (place : String) : Posts id path body (Client.logged place call) :=
  h.bind (fun o c => agent_logOutcome place o c) fun _ _ => rfl

theorem posts_post {payload : Option Payload} (hbody : Operation.bodyOf? payload = some body) :
    Posts id path body (Client.post path payload) := by
  rcases payload with _ | e | v
  · cases hbody
    exact posts_postBody path none
  · cases hbody
  · cases hbody
    exact posts_postBody path (some v.render)

theorem posts_posted (place : String) (f : Accepted → α) :
    Posts id path body (do return (← Client.logged place (postBody path body)).map f) :=
  ((posts_postBody path body).logged place).map f

theorem posts_login (credentials : Credentials) :
    Posts id Path.login (some credentials.body) (Client.login credentials) := by
  refine (posts_postBody _ _).bind ?_ fun _ _ => rfl
  rintro (e | accepted) c <;> rfl

theorem posts_session : Posts id Path.info none Client.session := by
  refine (posts_postBody _ _).bind ?_ fun _ _ => rfl
  rintro (e | accepted) c <;> rfl

theorem agent_deliver (batch : List Event) (c : Client) :
    ((deliver batch).run c).2.agent = c.agent := by
  simp only [deliver, StateT.run_bind, StateT.run_get, pure_bind]
  cases c.delivery.dispatch batch <;> rfl

theorem posts_announce (s : Subscription) :
    Posts Fault.error Path.subscribe (some s.body)
      (do return (← announce s).mapError Fault.error) :=
  (posts_posted _ _).bind (fun _ _ => rfl) fun _ _ => rfl

theorem posts_fetch : Posts Fault.error Path.fetch none Client.fetch := by
  refine (posts_postBody _ _).bind ?_ fun _ _ => rfl
  rintro (e | accepted) c
  · rfl
  · cases hbatch : Event.parseBatch accepted.body with
    | error e =>
      simp only [hbatch]
      rfl
    | ok batch =>
      simp only [hbatch]
      exact agent_deliver batch c

end Calls

section Operations

variable {c : Client} {op : Operation} {path : String} {body : Option String}

theorem run_of_posts?_eq_none (h : op.posts? c = none) :
    (op.run.run c).2.agent = c.agent ∧ (op.run.run c).1 ≠ .ok () := by
  cases op with
  | post path payload =>
    rcases payload with _ | e | v
    · cases h
    · exact ⟨rfl, nofun⟩
    · cases h
  | postLogged path payload =>
    rcases payload with _ | e | v
    · cases h
    · exact ⟨rfl, nofun⟩
    · cases h
  | publish key payload =>
    cases payload with
    | ok v => cases h
    | error e => exact ⟨rfl, nofun⟩
  | subscribe key authLevel handler =>
    simp only [Operation.posts?] at h
    rw [Operation.run, run_subscribe]
    cases hd : c.delivery.subscribe key authLevel handler with
    | ok delivery =>
      rw [hd] at h
      cases h
    | error delivery => exact ⟨rfl, nofun⟩
  | _ => cases h

theorem run_of_posts?_eq_some (h : op.posts? c = some (path, body)) :
    (op.run.run c).2.agent = (c.exchange path body).2 ∧
      ∀ e, outcomeOf (c.exchange path body).1 = .error e →
        (op.run.run c).1 = .error (.error e) := by
  have hposts : ∀ {call : Action (Except Fault Unit)}, Posts Fault.error path body call →
      (call.run c).2.agent = (c.exchange path body).2 ∧
        ∀ e, outcomeOf (c.exchange path body).1 = .error e → (call.run c).1 = .error (.error e) :=
    fun hcall => ⟨hcall.agent_eq c, hcall.error_eq c⟩
  cases op with
  | post path payload =>
    obtain ⟨b, hb, heq⟩ := Option.map_eq_some_iff.1 h
    cases heq
    exact hposts (posts_post hb).settle
  | postLogged path payload =>
    obtain ⟨b, hb, heq⟩ := Option.map_eq_some_iff.1 h
    cases heq
    exact hposts ((posts_post hb).logged path).settle
  | login credentials =>
    cases h
    exact hposts (posts_login credentials).settle
  | logout =>
    cases h
    exact hposts (posts_posted _ _).settle
  | keepAlive =>
    cases h
    exact hposts (posts_posted _ _).settle
  | info =>
    cases h
    exact hposts (posts_posted _ _).settle
  | session =>
    cases h
    exact hposts posts_session.settle
  | publish key payload =>
    cases payload with
    | ok v =>
      cases h
      exact hposts (posts_posted _ _).settle
    | error e => cases h
  | publishMessage message =>
    cases h
    exact hposts (posts_posted _ _).settle
  | subscribe key authLevel handler =>
    simp only [Operation.posts?] at h
    rw [Operation.run, run_subscribe]
    cases hd : c.delivery.subscribe key authLevel handler with
    | ok delivery =>
      rw [hd] at h
      cases h
      have hcall := posts_announce ⟨key, authLevel⟩
      exact ⟨hcall.agent_eq { c with delivery }, hcall.error_eq { c with delivery }⟩
    | error delivery =>
      rw [hd] at h
      cases h
  | fetch =>
    cases h
    exact hposts (posts_fetch.map _)

theorem reply?_of_target?_eq_some {url : Url}
    (h : Agent.target? (endpoint c.base path) = some url) :
    c.reply? path body = (c.agent.send { method := .post, url, body }).1 := by
  rw [reply?, h]
  rfl

theorem exchange_of_target?_eq_some (body : Option String) {url : Url}
    (h : Agent.target? (endpoint c.base path) = some url) :
    c.exchange path body =
      Agent.follow url Http.redirectLimit c.agent { method := .post, url, body } :=
  Agent.post_of_target?_eq_some h c.agent body

/-- A call is one post if the exchange is one. -/
theorem onePost_of_exchange (h : op.posts? c = some (path, body))
    (hrequests : (c.exchange path body).2.received = c.agent.received ∨
      ∃ url cookies, Agent.target? (endpoint c.base path) = some url ∧
        (c.exchange path body).2.received =
          c.agent.received ++ [Http.Request.received { method := .post, url, body } cookies])
    (hsuccess : ∀ accepted, outcomeOf (c.exchange path body).1 = .ok accepted →
      ∃ response, c.reply? path body = some (.response response) ∧ response.status = 200)
    (hrejection : ∀ response text, c.reply? path body = some (.response response) →
      response.status ≠ 200 → response.text = .ok text →
      outcomeOf (c.exchange path body).1 = .error (.status response.status text)) :
    OnePost c op := by
  obtain ⟨hagent, herror⟩ := run_of_posts?_eq_some h
  refine ⟨?_, fun hok => ?_, ?_⟩
  · rw [hagent]
    exact hrequests.imp_right fun ⟨url, cookies, hurl, hreceived⟩ =>
      ⟨path, body, url, cookies, h, hurl, hreceived⟩
  · cases houtcome : outcomeOf (c.exchange path body).1 with
    | error e =>
      rw [herror e houtcome] at hok
      cases hok
    | ok accepted =>
      obtain ⟨response, hreply, hstatus⟩ := hsuccess accepted houtcome
      exact ⟨path, body, response, h, hreply, hstatus⟩
  · intro path' body' response text h' hreply hstatus htext
    rw [h] at h'
    cases h'
    exact herror _ (hrejection response text hreply hstatus htext)

theorem onePost_of_failure {failure : Http.Failure} {a : Agent}
    (h : op.posts? c = some (path, body))
    (hexchange : c.exchange path body = (.error failure, a))
    (hrequests : a.received = c.agent.received ∨
      ∃ url cookies, Agent.target? (endpoint c.base path) = some url ∧
        a.received =
          c.agent.received ++ [Http.Request.received { method := .post, url, body } cookies])
    (hlost : ∀ response text, c.reply? path body = some (.response response) →
      response.text ≠ .ok text) : OnePost c op := by
  refine onePost_of_exchange h ?_ ?_ ?_
  · rw [hexchange]
    exact hrequests
  · intro accepted hok
    rw [hexchange] at hok
    cases hok
  · intro response text hreply _ htext
    exact absurd htext (hlost response text hreply)

/-- A call is one post if the answer to the post stays where it is. -/
theorem onePost_of_answer {url : Url} {response : Http.Response} {a : Agent}
    (h : op.posts? c = some (path, body)) (hurl : Agent.target? (endpoint c.base path) = some url)
    (hs : c.agent.send { method := .post, url, body } = (some (.response response), a))
    (hnext : response.redirection? url = none) : OnePost c op := by
  have hexchange := exchange_of_target?_eq_some body hurl
  rw [Agent.follow_of_answer url _ hs hnext] at hexchange
  have hreply : c.reply? path body = some (.response response) := by
    rw [reply?_of_target?_eq_some hurl, hs]
  refine onePost_of_exchange h ?_ ?_ ?_
  · rw [hexchange]
    exact .inr ⟨url, _, hurl, (Agent.received_of_send hs).1⟩
  · intro accepted hok
    rw [hexchange, outcomeOf_eq_ok_iff] at hok
    exact ⟨response, hreply, (Http.Answer.mk.inj (Except.ok.inj hok)).1⟩
  · intro response' text hreply' hstatus htext
    rw [hreply] at hreply'
    cases hreply'
    rw [hexchange]
    simp only [htext, outcomeOf, judge, if_neg hstatus]

theorem onePost_of_loss {url : Url} {reply : Option Http.Reply} {a a' : Agent}
    {failure : Http.Failure} (h : op.posts? c = some (path, body))
    (hurl : Agent.target? (endpoint c.base path) = some url)
    (hs : c.agent.send { method := .post, url, body } = (reply, a))
    (hfollow : Agent.follow url Http.redirectLimit c.agent { method := .post, url, body } =
      (.error failure, a')) (hkept : a'.received = a.received)
    (hlost : ∀ response text, reply = some (.response response) → response.text ≠ .ok text) :
    OnePost c op := by
  refine onePost_of_failure h ((exchange_of_target?_eq_some body hurl).trans hfollow) ?_ ?_
  · rw [hkept]
    cases reply with
    | none => exact .inl (by rw [Agent.eq_of_send_eq_none hs])
    | some reply => exact .inr ⟨url, _, hurl, (Agent.received_of_send hs).1⟩
  · intro response text hreply
    rw [reply?_of_target?_eq_some hurl, hs] at hreply
    exact hlost response text hreply

theorem onePost_of_not_strays (hstrays : ¬ Strays c op) : OnePost c op := by
  cases h : op.posts? c with
  | none =>
    obtain ⟨hagent, hfails⟩ := run_of_posts?_eq_none h
    refine ⟨.inl (by rw [hagent]), fun hok => absurd hok hfails, ?_⟩
    intro path body response text h'
    rw [h] at h'
    cases h'
  | some posted =>
    obtain ⟨path, body⟩ := posted
    cases hurl : Agent.target? (endpoint c.base path) with
    | none =>
      obtain ⟨failure, hpost⟩ := Agent.post_of_target?_eq_none hurl c.agent body
      refine onePost_of_failure h hpost (.inl rfl) fun response text hreply => ?_
      rw [reply?, hurl] at hreply
      cases hreply
    | some url =>
      cases hs : c.agent.send { method := .post, url, body } with
      | mk reply a =>
        by_cases hresponse : ∃ response, reply = some (.response response)
        · obtain ⟨response, rfl⟩ := hresponse
          cases hnext : response.redirection? url with
          | none => exact onePost_of_answer h hurl hs hnext
          | some next =>
            have hreply : c.reply? path body = some (.response response) := by
              rw [reply?_of_target?_eq_some hurl, hs]
            have hfails :
                ¬ (Http.isWebScheme next.scheme = true ∨ ∃ text, response.text = .ok text) :=
              fun hlost => hstrays ⟨path, body, url, response, next, h, hurl, hreply, hnext, hlost⟩
            obtain ⟨hforeign, hlost⟩ := not_or.1 hfails
            obtain ⟨failure, hfollow⟩ := Agent.follow_of_failure url
              Http.redirectLimit hs hnext (.inr (Bool.eq_false_iff.2 hforeign))
            refine onePost_of_loss h hurl hs hfollow rfl fun response' text heq htext => ?_
            cases heq
            exact hlost ⟨text, htext⟩
        · have hnone : ∀ response, reply ≠ some (.response response) :=
            fun response heq => hresponse ⟨response, heq⟩
          obtain ⟨failure, hfollow⟩ := Agent.follow_of_no_response url
            Http.redirectLimit hs hnone
          exact onePost_of_loss h hurl hs hfollow rfl
            fun response _ heq => absurd heq (hnone response)

theorem status_ne_of_redirection? {response : Http.Response} {url next : Url}
    (h : response.redirection? url = some next) : response.status ≠ 200 := by
  intro hstatus
  rw [Http.Response.redirection?, hstatus] at h
  cases h

theorem not_onePost_of_strays (hstrays : Strays c op) : ¬ OnePost c op := by
  obtain ⟨path, body, url, response, next, h, hurl, hreply, hnext, hlost⟩ := hstrays
  intro hone
  obtain ⟨hagent, herror⟩ := run_of_posts?_eq_some h
  have hexchange := exchange_of_target?_eq_some body hurl
  cases hs : c.agent.send { method := .post, url, body } with
  | mk reply a₁ =>
    rw [reply?_of_target?_eq_some hurl, hs] at hreply
    obtain rfl : reply = some (.response response) := hreply
    obtain ⟨hreceived, hreachable⟩ := Agent.received_of_send hs
    by_cases hw : Http.isWebScheme next.scheme = true
    · -- The request that follows reaches the server, too.
      obtain ⟨rs, _, hrs⟩ := Agent.exists_received_of_follow url 9
        (a₁.keepCookies url response)
        (Http.Request.redirect { method := .post, url, body } response.status next)
        hreachable
      have hkept : (a₁.keepCookies url response).received = a₁.received := rfl
      have hfollow : (c.exchange path body).2.received = _ :=
        (congrArg (fun x => x.2.received)
          (hexchange.trans (Agent.follow_of_redirection url 9 hs hnext hw))).trans hrs
      have hlength := congrArg List.length hfollow
      rw [hkept, hreceived] at hlength
      obtain heq | ⟨_, _, _, _, _, _, heq⟩ := hone.requests
      · rw [hagent] at heq
        rw [heq] at hlength
        simp only [List.length_append, List.length_cons] at hlength
        omega
      · rw [hagent] at heq
        rw [heq] at hlength
        simp only [List.length_append, List.length_cons] at hlength
        omega
    · -- The answer is lost, although its status should be told.
      obtain ⟨text, htext⟩ := hlost.resolve_left hw
      obtain ⟨failure, hfollow⟩ := Agent.follow_of_failure url
        Http.redirectLimit hs hnext (.inr (Bool.eq_false_iff.2 hw))
      have hreply : c.reply? path body = some (.response response) := by
        rw [reply?_of_target?_eq_some hurl, hs]
      have hrejected := hone.rejection path body response text h hreply
        (status_ne_of_redirection? hnext) htext
      rw [herror (.http failure) (by rw [hexchange, hfollow]; rfl)] at hrejected
      cases hrejected

/-- A call that can make its post begins with it, and at most ten requests follow. -/
theorem exists_received_of_target? {url : Url} (h : op.posts? c = some (path, body))
    (hurl : Agent.target? (endpoint c.base path) = some url)
    (hreachable : c.agent.server.isReachable = true) :
    ∃ cookies rs, rs.length ≤ 10 ∧ (op.run.run c).2.agent.received = c.agent.received ++
      Http.Request.received { method := .post, url, body } cookies :: rs := by
  obtain ⟨rs, hlength, hrs⟩ := Agent.exists_received_of_follow url Http.redirectLimit c.agent
    { method := .post, url, body } hreachable
  rw [(run_of_posts?_eq_some h).1, exchange_of_target?_eq_some body hurl]
  exact ⟨_, rs, hlength, hrs⟩

/-- Whatever the server answers, a call begins with its post, and at most ten requests follow. -/
theorem exists_received_of_run (c : Client) (op : Operation) :
    (op.run.run c).2.agent.received = c.agent.received ∨
      ∃ path body url cookies rs, op.posts? c = some (path, body) ∧
        Agent.target? (endpoint c.base path) = some url ∧ rs.length ≤ 10 ∧
        (op.run.run c).2.agent.received = c.agent.received ++
          Http.Request.received { method := .post, url, body } cookies :: rs := by
  cases h : op.posts? c with
  | none => exact .inl (by rw [(run_of_posts?_eq_none h).1])
  | some posted =>
    obtain ⟨path, body⟩ := posted
    cases hurl : Agent.target? (endpoint c.base path) with
    | none =>
      obtain ⟨failure, hpost⟩ := Agent.post_of_target?_eq_none hurl c.agent body
      exact .inl (by rw [(run_of_posts?_eq_some h).1, exchange, hpost])
    | some url =>
      cases hreachable : c.agent.server.isReachable with
      | true =>
        obtain ⟨cookies, rs, hlength, hrs⟩ := exists_received_of_target? h hurl hreachable
        exact .inr ⟨path, body, url, cookies, rs, rfl, hurl, hlength, hrs⟩
      | false =>
        have hs : c.agent.send { method := .post, url, body } = (none, c.agent) := by
          rw [Agent.send, hreachable]
          rfl
        obtain ⟨failure, hfollow⟩ := Agent.follow_of_no_response url Http.redirectLimit hs
          fun response => (Option.some_ne_none _).symm
        refine .inl ?_
        rw [(run_of_posts?_eq_some h).1, exchange_of_target?_eq_some body hurl, hfollow]

/-- A call is one post if, and only if, its post is not answered by a response that leads
elsewhere. -/
theorem onePost_iff_not_strays (c : Client) (op : Operation) : OnePost c op ↔ ¬ Strays c op :=
  ⟨fun hone hstrays => not_onePost_of_strays hstrays hone, onePost_of_not_strays⟩

end Operations

def redirected : Client where
  config := .ofUrl "http://susi.test"
  base := "http://susi.test"
  agent :=
    { server :=
        { replies :=
            [.response
              { status := 302
                headers := [("location", "/next")]
                body := "moved".toUTF8.toList },
              .response { body := "landed".toUTF8.toList }] } }

def redirectedPost : Operation :=
  .post "/x" (some (.ok (.object [("a", .number (.integer ⟨1, by decide, by decide⟩))])))

/-- The call makes two requests and succeeds, although its post was answered with the status 302. -/
theorem not_onePost_redirected : ¬ OnePost redirected redirectedPost := by
  intro hone
  have htwo : (redirectedPost.run.run redirected).2.agent.received.map
      (fun r => (r.method, r.target)) = [(.post, "/x"), (.get, "/next")] := by decide +kernel
  have hlength := congrArg List.length htwo
  obtain heq | ⟨_, _, _, _, _, _, heq⟩ := hone.requests
  · rw [heq] at hlength
    cases hlength
  · rw [heq] at hlength
    cases hlength

end TopicClient.Client

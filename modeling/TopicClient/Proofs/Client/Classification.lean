import TopicClient.Proofs.Client.Operation
import TopicClient.Proofs.Client.Posting
import TopicClient.Proofs.Http.Hops

/-!
# What a post comes to

A post is answered, rejected or lost, and the last response on its way decides which of the three:
`Classified`. The way itself is a route: the post, and at most ten requests that redirections ask
for. `post_classified` says so of every post that can be written; one whose URL is none of the web,
or none that requests take, is lost without a request.
-/

namespace TopicClient.Client

open Http (Agent Hop Route)

/-- The text is a URL of the web, and one that requests take. -/
def IsPostable (text : String) (url : Url) : Prop :=
  Url.parse text = .ok url ∧ Http.isWebScheme url.scheme = true ∧
    Http.isUri url.withoutAccount = true

structure Classified (hops : List Hop) (o : Outcome Accepted) : Prop where
  ok_iff : ∀ body, o = .ok ⟨body⟩ ↔ ∃ response, Http.Ends hops response ∧
    response.status = 200 ∧ response.ending = .complete ∧
      body = String.ofList (Text.decodeLossy response.body)
  status_iff : ∀ code body, o = .error (.status code body) ↔ ∃ response,
    Http.Ends hops response ∧ response.status = code ∧ code ≠ 200 ∧ response.text = .ok body
  http_iff : (∃ failure, o = .error (.http failure)) ↔
    ¬ ∃ response text, Http.Ends hops response ∧ response.text = .ok text

/-- The requests of a post in their order: at least the post itself, at most ten after it, and no
body once one of them has become a GET. -/
structure Passed (s : Http.Server) (first : Http.Request) (hops : List Hop) : Prop where
  route : Route Http.redirectLimit s first hops
  pos : 1 ≤ hops.length
  le : hops.length ≤ 11
  no_body : ∀ hop ∈ hops, hop.request.method = .get → hop.request.body = none
  stays_get : hops.Pairwise fun h k => h.request.method = .get → k.request.method = .get

theorem classified_of_travels {a a' : Agent} {limit : ℕ} {r : Http.Request} {hops : List Hop}
    {o : Except Http.Failure Http.Answer} (h : Http.Travels a limit r hops o a') :
    Classified hops (outcomeOf o) where
  ok_iff := by
    intro body
    rw [outcomeOf_eq_ok_iff, h.answer_iff]
    refine exists_congr fun response => and_congr_right fun _ => ?_
    constructor
    · intro heq
      obtain ⟨hstatus, htext⟩ := Http.Answer.mk.inj heq
      obtain ⟨hbodiless, _⟩ | ⟨_, hcomplete⟩ := Http.Response.text_eq_ok_iff.1 htext.symm
      · rw [← hstatus] at hbodiless
        cases hbodiless
      · exact ⟨hstatus.symm, hcomplete⟩
    · rintro ⟨hstatus, hcomplete⟩
      have htext : response.text = .ok body :=
        Http.Response.text_eq_ok_iff.2 (.inr ⟨by rw [hstatus]; rfl, hcomplete⟩)
      rw [hstatus, htext]
  status_iff := by
    intro code body
    rw [outcomeOf_eq_status_iff, h.answer_iff]
    constructor
    · rintro ⟨⟨response, hends, heq⟩, hcode⟩
      obtain ⟨hstatus, htext⟩ := Http.Answer.mk.inj heq
      exact ⟨response, hends, hstatus.symm, hcode, htext.symm⟩
    · rintro ⟨response, hends, rfl, hcode, htext⟩
      exact ⟨⟨response, hends, by rw [htext]⟩, hcode⟩
  http_iff := by
    rw [exists_outcomeOf_eq_http_iff]
    refine not_congr ?_
    simp only [h.answer_iff]
    constructor
    · rintro ⟨status, text, response, hends, heq⟩
      exact ⟨response, text, hends, (Http.Answer.mk.inj heq).2.symm⟩
    · rintro ⟨response, text, hends, htext⟩
      exact ⟨response.status, text, response, hends, by rw [htext]⟩

theorem passed_of_route {s : Http.Server} {first : Http.Request} {hops : List Hop}
    (h : Route Http.redirectLimit s first hops) (hpost : first.method = .post) :
    Passed s first hops := by
  obtain ⟨hbody, hget⟩ := h.pairwise_get fun hget => nomatch hpost.symm.trans hget
  exact ⟨h, List.length_pos_iff.2 h.ne_nil, h.length_le, hbody, hget⟩

section

variable {c : Client} {path : String} {body : Option String}

theorem run_post {payload : Option Payload} (hbody : encode payload = .ok body) :
    (post path payload).run c =
      (outcomeOf (c.exchange path body).1, c.afterExchange path body) := by
  rw [post, hbody]
  exact run_postBody c path body

theorem exchange_of_isPostable (body : Option String) {url : Url}
    (h : IsPostable (endpoint c.base path) url) :
    c.exchange path body = Agent.follow url.withoutAccount Http.redirectLimit c.agent
      { method := .post, url := url.withoutAccount, body } :=
  Agent.post_of_target?_eq_some (Agent.target?_eq_some_iff.2 ⟨url, h.1, h.2.1, h.2.2, rfl⟩) c.agent
    body

theorem exchange_of_not_isPostable (body : Option String)
    (h : ¬ ∃ url, IsPostable (endpoint c.base path) url) :
    ∃ failure, c.exchange path body = (.error failure, c.agent) := by
  refine Agent.post_of_target?_eq_none (Option.eq_none_iff_forall_ne_some.2 ?_) c.agent body
  intro target htarget
  obtain ⟨url, hparse, hscheme, huri, _⟩ := Agent.target?_eq_some_iff.1 htarget
  exact h ⟨url, hparse, hscheme, huri⟩

end

/-- A post to a URL of the web makes the requests of a route that begins with it, all of which reach
a server that can be reached, and comes to what the last response says. Any other post is lost
without a request. -/
theorem post_classified (c : Client) (path : String) {payload : Option Payload}
    {body : Option String} (hbody : encode payload = .ok body) :
    (∀ url, IsPostable (endpoint c.base path) url →
      ∃ hops, Passed c.agent.server { method := .post, url := url.withoutAccount, body } hops ∧
        Classified hops ((post path payload).run c).1 ∧
        if c.agent.server.isReachable then
          ∃ sent, ((post path payload).run c).2.agent.received = c.agent.received ++ sent ∧
            List.Forall₂ Hop.Shows hops sent
        else ((post path payload).run c).2.agent.received = c.agent.received) ∧
    ((¬ ∃ url, IsPostable (endpoint c.base path) url) →
      ((post path payload).run c).2.agent.received = c.agent.received ∧
        ∃ failure, ((post path payload).run c).1 = .error (.http failure)) := by
  rw [run_post hbody]
  constructor
  · intro url hurl
    have hexchange := exchange_of_isPostable body hurl
    obtain ⟨hops, htravels⟩ := Http.exists_travels url.withoutAccount Http.redirectLimit c.agent
      { method := .post, url := url.withoutAccount, body }
    rw [← hexchange] at htravels
    refine ⟨hops, passed_of_route htravels.route rfl, classified_of_travels htravels, ?_⟩
    split_ifs with hreachable
    · exact htravels.received hreachable
    · change (c.exchange path body).2.received = _
      rw [hexchange]
      exact Http.received_of_not_isReachable _ _ _ (Bool.eq_false_iff.2 hreachable)
  · intro hnone
    obtain ⟨failure, hexchange⟩ := exchange_of_not_isPostable body hnone
    rw [afterExchange, hexchange]
    exact ⟨rfl, failure, rfl⟩

def sentOn : Client where
  config := .ofUrl "http://susi.test"
  base := "http://susi.test"
  agent :=
    { server :=
        { replies :=
            [.response { status := 307, headers := [("location", "/b")] },
              .response { status := 303, headers := [("location", "/c")], ending := .cutShort },
              .response { body := "done".toUTF8.toList }] } }

def sentOnPayload : Option Payload := some (.ok (.bool true))

theorem post_classified_sentOn :
    encode sentOnPayload = .ok (some "true") ∧
      ∃ url hops, IsPostable (endpoint sentOn.base "/a") url ∧
        Passed sentOn.agent.server
          { method := .post, url := url.withoutAccount, body := some "true" } hops ∧
        hops.length = 3 ∧ ((post "/a" sentOnPayload).run sentOn).1 = .ok ⟨"done"⟩ ∧
        ∃ response, Http.Ends hops response ∧ response.status = 200 := by
  have hbody : encode sentOnPayload = .ok (some "true") := by decide +kernel
  have htarget : (Agent.target? (endpoint sentOn.base "/a")).isSome = true := by decide +kernel
  obtain ⟨target, htarget⟩ := Option.isSome_iff_exists.1 htarget
  obtain ⟨url, hparse, hscheme, huri, _⟩ := Agent.target?_eq_some_iff.1 htarget
  have hurl : IsPostable (endpoint sentOn.base "/a") url := ⟨hparse, hscheme, huri⟩
  obtain ⟨hops, hpassed, hclassified, hreceived⟩ := (post_classified sentOn "/a" hbody).1 url hurl
  have hlength : ((post "/a" sentOnPayload).run sentOn).2.agent.received.length = 3 := by
    decide +kernel
  have hok : ((post "/a" sentOnPayload).run sentOn).1 = .ok ⟨"done"⟩ := by decide +kernel
  obtain ⟨response, hends, hstatus, _⟩ := (hclassified.ok_iff "done").1 hok
  have hreachable : sentOn.agent.server.isReachable = true := rfl
  rw [if_pos hreachable] at hreceived
  obtain ⟨sent, hsent, hshows⟩ := hreceived
  refine ⟨hbody, url, hops, hurl, hpassed, ?_, hok, response, hends, hstatus⟩
  rw [hshows.length_eq, ← hlength, hsent]
  rfl

def braced : Client where
  config := .ofUrl "http://a\x7bb"
  base := "http://a\x7bb"
  agent := { server := {} }

/-- The text is a URL of the web, and still no request can be made for it. -/
theorem not_postable_braced :
    connect (.ofUrl "http://a\x7bb") braced.agent = .ok braced ∧
      (Url.parse (endpoint braced.base "/x")).toOption.any (fun url =>
        Http.isWebScheme url.scheme) = true ∧
      ((post "/x" (some (.ok (.number (.integer ⟨1, by decide, by decide⟩))))).run
        braced).2.agent.received = [] := by
  refine ⟨connect_ofUrl _ (by decide +kernel) (by decide +kernel), ?_, ?_⟩
  · decide +kernel
  · decide +kernel

end TopicClient.Client
